import RspBt.Bt.Insn
import RspBt.Rsp.DmaRows
import RspBt.Rsp.Effect

namespace RspBt.Rsp

open Lib

theorem dmaBank_of_bit (s : Rsp) : s.dmaBank = if s.spMemAddr.getLsbD 12 then 0x1000 else 0 := by
  have h : (s.spMemAddr &&& 0x1000) = if s.spMemAddr.getLsbD 12 then 0x1000 else 0 :=
    BitVec.and_twoPow s.spMemAddr 12
  rw [dmaBank, h]
  split_ifs <;> rfl

def KeepsDmem (s s' : Rsp) : Prop := ∀ a < 0x1000, s'.mem a = s.mem a

theorem dmaAt_fits (s : Rsp) (x : Word) (toRsp : Bool) (i : ℕ) :
    (s.dmaAt x toRsp i).off + dmaRowLen (dmaLen x) (s.dmaAt x toRsp i).off ≤ 0x1000 :=
  dmaRowLen_le (s.dmaAt_inSpace x toRsp i).off

theorem dmaAt_mem (s : Rsp) (x : Word) (toRsp : Bool) (i a : ℕ)
    (ha : toRsp = false ∨ a < s.dmaBank ∨ s.dmaBank + 0x1000 ≤ a) :
    (s.dmaAt x toRsp i).s.mem a = s.mem a := by
  induction i with
  | zero => rfl
  | succ i ih =>
    rw [dmaAt_succ, ← ih]
    have hfit := s.dmaAt_fits x toRsp i
    cases toRsp with
    | false => rfl
    | true =>
      have hmem : (dmaRow (dmaLen x) (dmaSkip x) s.dmaBank true (s.dmaAt x true i)).s.mem =
          memcpy (s.dmaAt x true i).s.mem (s.dmaBank + (s.dmaAt x true i).off)
            (s.dmaAt x true i).s.rdram (s.dmaAt x true i).dram
            (dmaRowLen (dmaLen x) (s.dmaAt x true i).off) := by
        simp only [dmaRow, if_true]
        split_ifs <;> rfl
      rw [hmem]
      exact memcpy_out (by
        rcases ha with ha | ha
        · cases ha
        · omega)

theorem dma_mem (s : Rsp) (x : Word) (toRsp : Bool) (a : ℕ)
    (ha : toRsp = false ∨ a < s.dmaBank ∨ s.dmaBank + 0x1000 ≤ a) :
    (s.dma x toRsp).mem a = s.mem a := s.dmaAt_mem x toRsp (dmaCount x) a ha

theorem dma_imemGen (s : Rsp) (x : Word) (toRsp : Bool)
    (h : toRsp = false ∨ s.spMemAddr.getLsbD 12 = false) : (s.dma x toRsp).imemGen = s.imemGen := by
  have hrows (i : ℕ) : (s.dmaAt x toRsp i).s.imemGen = s.imemGen := by
    induction i with
    | zero => rfl
    | succ i ih =>
      rw [dmaAt_succ, ← ih]
      rcases h with rfl | hbit
      · rfl
      · have hbank : s.dmaBank = 0 := by rw [dmaBank_of_bit, hbit]; rfl
        rw [hbank]
        cases toRsp <;> rfl
  exact hrows (dmaCount x)

/-- A change of the image is counted; either takes a transfer into IMEM. -/
structure Tracked (s s' : Rsp) (into : Prop) : Prop where
  counted : s'.imem ≠ s.imem → s'.imemGen ≠ s.imemGen
  only : s'.imem ≠ s.imem ∨ s'.imemGen ≠ s.imemGen → into

theorem Tracked.of_keeps {s s' : Rsp} {into : Prop} (h : KeepsImem s s') (hg : s'.imemGen = s.imemGen) :
    Tracked s s' into where
  counted hi := absurd h.imem hi
  only hi := by
    rcases hi with hi | hi
    · exact absurd h.imem hi
    · exact absurd hg hi

theorem tracked_dma (s : Rsp) (x : Word) (toRsp : Bool) :
    Tracked s (s.dma x toRsp) (toRsp = true ∧ s.spMemAddr.getLsbD 12 = true) := by
  by_cases hinto : toRsp = true ∧ s.spMemAddr.getLsbD 12 = true
  · exact ⟨fun hi hg => hi (keepsImem_dma hg).imem, fun _ => hinto⟩
  · have hor : toRsp = false ∨ s.spMemAddr.getLsbD 12 = false := by
      rw [← Bool.not_eq_true, ← Bool.not_eq_true]
      tauto
    have hgen := s.dma_imemGen x toRsp hor
    exact .of_keeps (keepsImem_dma hgen) hgen

def IntoImem (s : Rsp) (w : Word) : Prop :=
  w.op = 0x10 ∧ w.rs = 4 ∧ w.rd = 2 ∧ s.spMemAddr.getLsbD 12 = true

theorem tracked_mtc0 {s s' : Rsp} {rd : BitVec 5} {x : Word} (h : s.mtc0 rd x = some s') :
    Tracked s s' (rd = 2 ∧ s.spMemAddr.getLsbD 12 = true) := by
  unfold mtc0 at h
  split at h
  case h_15 => cases h
  all_goals obtain rfl := Option.some.inj h
  case h_3 =>
    have ht := s.tracked_dma x true
    exact ⟨ht.counted, fun hi => ⟨rfl, (ht.only hi).2⟩⟩
  case h_4 =>
    have ht := s.tracked_dma x false
    exact ⟨ht.counted, fun hi => absurd (ht.only hi).1 (by decide)⟩
  all_goals exact .of_keeps (.refl s) rfl

theorem Effect.tracked {s s' : Rsp} {w : Word} (h : Effect s w s') :
    Tracked s s' (IntoImem s w) := by
  rcases h.keepsImem with ⟨hk, hg⟩ | ⟨hop, hrs, hm⟩
  · exact .of_keeps hk hg
  · have ht := tracked_mtc0 hm
    exact ⟨ht.counted, fun hi => ⟨hop, hrs, ht.only hi⟩⟩

/-- A store, scalar or vector, reaches no byte of IMEM. -/
theorem Effect.keepsImem_of_store {s s' : Rsp} {w : Word} (h : Effect s w s') (hw : isStore w) :
    KeepsImem s s' := by
  rcases h.keepsImem with ⟨hk, -⟩ | ⟨hop, -⟩
  · exact hk
  · simp only [isStore, hop] at hw
    cases hw

structure TracksImem (s : Rsp) : Prop where
  insn : ∀ nextPc w f, s.switch nextPc w = some f → Tracked s f.s.zeroR0 (IntoImem s w)
  dma : ∀ x toRsp, Tracked s (s.dma x toRsp) (toRsp = true ∧ s.spMemAddr.getLsbD 12 = true)
  keepsImem : ∀ x toRsp, s.spMemAddr.getLsbD 12 = false → KeepsImem s (s.dma x toRsp)
  keepsDmem : ∀ x toRsp, s.spMemAddr.getLsbD 12 = true → KeepsDmem s (s.dma x toRsp)
  /-- The indices of row `i` inside its bank. -/
  indices : ∀ x toRsp, ∀ i < dmaCount x,
    ∀ j < dmaRowLen (dmaLen x) (s.dmaAt x toRsp i).off,
      s.dmaBank ≤ s.dmaBank + (s.dmaAt x toRsp i).off + j ∧
        s.dmaBank + (s.dmaAt x toRsp i).off + j < s.dmaBank + 0x1000
  stores : ∀ nextPc w f, isStore w → s.switch nextPc w = some f → KeepsImem s f.s.zeroR0
  reports : ∀ rd x c changed, Frame.rspbtMtc0 s rd x = some (c, changed) →
    c.imem ≠ s.imem → changed = true

/-- In every state the counter moves when instruction memory does, and only a transfer into
IMEM moves either. -/
theorem tracksImem (s : Rsp) : TracksImem s where
  insn nextPc w f h := by
    have ht := (effect_switch h).tracked
    exact ⟨ht.counted, ht.only⟩
  dma x toRsp := s.tracked_dma x toRsp
  keepsImem x toRsp hbit a ha := by
    have hbank : s.dmaBank = 0 := by rw [dmaBank_of_bit, hbit]; rfl
    exact s.dma_mem x toRsp a (.inr (.inr (by omega)))
  keepsDmem x toRsp hbit a ha := by
    have hbank : s.dmaBank = 0x1000 := by rw [dmaBank_of_bit, hbit]; rfl
    exact s.dma_mem x toRsp a (.inr (.inl (by omega)))
  indices x toRsp i _ j hj := by
    have hfit := s.dmaAt_fits x toRsp i
    constructor <;> omega
  stores nextPc w f hw h := (effect_switch h).keepsImem_of_store hw
  reports rd x c changed h hi := by
    obtain ⟨c', hc, hpair⟩ := Option.map_eq_some_iff.mp h
    obtain ⟨rfl, rfl⟩ := Prod.mk.inj hpair
    exact bne_iff_ne.mpr ((tracked_mtc0 hc).counted hi)

end RspBt.Rsp
