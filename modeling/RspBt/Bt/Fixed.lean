import RspBt.Bt.AgreeAlu
import RspBt.Rsp.Fixed

namespace RspBt

open Lib

namespace RspInsn

/-- The IR of a vector operation spills what the interpreter's switch leaves. -/
theorem generateIR_vec {w : Word} {fn : BitVec 6} (hw : Rsp.IsVec w fn) {o : VecOpInsn}
    (ho : decodeVecOp fn = some o) (addr : Word) {f : Frame} {s s' : Rsp} (hf : f.spill = s)
    (hs : s.straight w = some s') :
    ∃ f', decode w addr = some ⟨.vecOp o, w, addr⟩ ∧
      (⟨.vecOp o, w, addr⟩ : RspInsn).generateIR f = .cont f' ∧ f'.spill = s' := by
  have hc : decodeClass w = some (.vecOp o) := by
    simp only [decodeClass, hw.op, hw.isVecOp, hw.fn, ho]
    rfl
  rw [← hw.fn] at ho
  obtain ⟨op, hop, hv⟩ := Frame.spill_vecOpIR ho f
  refine ⟨f.vecOpIR w o, by rw [decode, hc, Option.map_some], rfl, ?_⟩
  rw [hw.fn] at hop
  have he := Rsp.straight_vec hw hop s
  rw [hs] at he
  rw [hv, Rsp.vecLoop_eq, hf, Option.some.inj he]

end RspInsn

structure DoubleSumAlike (s : Rsp) (w₁ w₂ : Word) (i : Fin 8) (x y : Word) : Prop where
  interp : ∃ s₁ s₂, s.straight w₁ = some s₁ ∧ s₁.straight w₂ = some s₂ ∧
    s.DoubleSum s₂ w₁ w₂ i x y
  translated : ∀ f : Frame, f.spill = s → ∀ a₁ a₂, ∃ i₁ i₂ f₁ f₂,
    RspInsn.decode w₁ a₁ = some i₁ ∧ i₁.generateIR f = .cont f₁ ∧
      RspInsn.decode w₂ a₂ = some i₂ ∧ i₂.generateIR f₁ = .cont f₂ ∧
      s.DoubleSum f₂.spill w₁ w₂ i x y

/-- A double-precision sum is exact, its high half saturated, in both engines. -/
theorem doubleSum_alike {w₁ w₂ : Word} (h₁ : Rsp.IsVec w₁ 0x14) (h₂ : Rsp.IsVec w₂ 0x10)
    (hs : Rsp.Spares w₁ w₂) (hd : w₂.sa ≠ w₁.sa) {s : Rsp} {i : Fin 8} {x y : Word}
    (hl : s.Feeds w₁ i (Rsp.lo16 x) (Rsp.lo16 y)) (hh : s.Feeds w₂ i (Rsp.hi16 x) (Rsp.hi16 y)) :
    DoubleSumAlike s w₁ w₂ i x y := by
  obtain ⟨s₁, s₂, he₁, he₂, hsum⟩ := Rsp.doubleSum h₁ h₂ hs hd hl hh
  refine ⟨⟨s₁, s₂, he₁, he₂, hsum⟩, fun f hf a₁ a₂ => ?_⟩
  obtain ⟨f₁, hd₁, hg₁, hf₁⟩ := RspInsn.generateIR_vec h₁ rfl a₁ hf he₁
  obtain ⟨f₂, hd₂, hg₂, hf₂⟩ := RspInsn.generateIR_vec h₂ rfl a₂ hf₁ he₂
  refine ⟨_, _, f₁, f₂, hd₁, hg₁, hd₂, hg₂, ?_⟩
  rw [hf₂]
  exact hsum

/-- `vaddc $v5, $v1, $v2` and `vadd $v6, $v3, $v4` on -1 and 1. -/
theorem doubleSum_alike_minusOne :
    DoubleSumAlike (Rsp.withHalves 0xffffffff 1) 0x4a020954 0x4a041990 0 0xffffffff 1 :=
  doubleSum_alike ⟨rfl, rfl, rfl⟩ ⟨rfl, rfl, rfl⟩ (by decide) (by decide) ⟨rfl, rfl⟩ ⟨rfl, rfl⟩

end RspBt
