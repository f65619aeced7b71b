import RspBt.Rsp.DmaRows
import RspBt.Rsp.Effect
import RspBt.Rsp.Exact

namespace RspBt

open Lib

namespace Rsp

structure Inv (s : Rsp) : Prop where
  r0 : s.r 0 = 0
  acc : ∀ i, sext48 (s.acc i) = s.acc i
  spMemAddr : s.spMemAddr.toNat < 0x2000
  spDramAddr : s.spDramAddr.toNat < 0x1000000
  /-- Only the SIG bits. -/
  spStatus : s.spStatus &&& ~~~0x7f80 = 0

theorem Inv.fits {s : Rsp} (h : s.Inv) (i : Fin 8) : FitsS 48 (s.acc i).toInt :=
  (sext48_eq_self_iff _).mp (h.acc i)

/-- No arithmetic of a vector operation leaves the range of `int64_t`, and what it leaves in a lane
is made of these integers. -/
structure NoOverflow (s : Rsp) : Prop where
  inRange : ∀ w : Word, ∀ i : Fin 8, ∀ x ∈ vecExps w.fn,
    x.InRange 64 fun o => (operand (s.v w.rd i) (s.v w.rt (vtLane w.vecE i)) (s.lanes i) o).toInt
  finish : ∀ w : Word, ∀ i : Fin 8, ∀ op, vecOp w.fn = some op →
    let x := s.v w.rd i
    let y := s.v w.rt (vtLane w.vecE i)
    vecExps w.fn = [] ∨ ∃ words : List (BitVec 64),
      words.map BitVec.toInt =
        (vecExps w.fn).map (fun e => e.value fun o => (operand x y (s.lanes i) o).toInt) ∧
      vecFinish w.fn x y (s.lanes i) words = some (op w.vecE x y (s.lanes i))

theorem Inv.noOverflow {s : Rsp} (h : s.Inv) : s.NoOverflow where
  inRange w i := vecExps_inRange w.fn _ _ (h.fits i)
  finish w i op hop := by
    refine (vecOp_finish hop w.vecE _ _ (s.lanes i)).imp_right fun hfin => ⟨_, ?_, hfin⟩
    rw [List.map_map]
    exact List.map_congr_left fun x hx => toInt_exp w.fn hx (h.fits i)

theorem sext48_eq_iff_bits (x : BitVec 64) :
    sext48 x = x ↔ ∀ j, 48 ≤ j → j < 64 → x.getLsbD j = x.getLsbD 47 := by
  have hb (j : ℕ) (hj : j < 64) :
      (sext48 x).getLsbD j = if j < 48 then x.getLsbD j else x.getLsbD 47 := by
    simp only [sext48, BitVec.getLsbD_sshiftRight, BitVec.getLsbD_shiftLeft, BitVec.msb_eq_getLsbD_last]
    grind
  constructor
  · intro h j hl hj
    have hj' := hb j hj
    rw [h, if_neg (by omega)] at hj'
    exact hj'
  · intro h
    apply BitVec.eq_of_getLsbD_eq
    intro j hj
    rw [hb j hj]
    split_ifs with hl
    · rfl
    · exact (h j (by omega) hj).symm

/-- A write of the low slice keeps the accumulator in its 48 bits. -/
theorem sext48_lowSlice {a y : BitVec 64} (ha : sext48 a = a)
    (hy : ∀ j, 16 ≤ j → j < 64 → y.getLsbD j = a.getLsbD j) : sext48 y = y := by
  rw [sext48_eq_iff_bits] at ha ⊢
  intro j hl hj
  rw [hy j (by omega) hj, hy 47 (by omega) (by omega), ha j hl hj]

theorem sext48_sext48 (x : BitVec 64) : sext48 (sext48 x) = sext48 x := by
  rw [sext48_eq_self_iff, toInt_sext48]
  have hl := Int.le_bmod (x := x.toInt) (m := 2 ^ 48) (by decide)
  have hr := Int.bmod_lt (x := x.toInt) (m := 2 ^ 48) (by decide)
  constructor <;> omega

theorem Lane.lowSlice_fits {l : Lane} (h : sext48 l.acc = l.acc) (x : BitVec 16) :
    sext48 (l.lowSlice x).acc = (l.lowSlice x).acc := by
  refine sext48_lowSlice h fun j hl hj => ?_
  have hm : ∀ j < 64, (0xffff : BitVec 64).getLsbD j = decide (j < 16) := by decide
  simp only [Lane.lowSlice, BitVec.getLsbD_or, BitVec.getLsbD_and, BitVec.getLsbD_not,
    BitVec.getLsbD_setWidth, hm j hj]
  grind

theorem sumSlice_fits {a : BitVec 64} (h : sext48 a = a) (x : BitVec 64) :
    sext48 ((a &&& ~~~(0xffff : BitVec 64)) ||| (x &&& 0xffff)) =
      (a &&& ~~~(0xffff : BitVec 64)) ||| (x &&& 0xffff) := by
  refine sext48_lowSlice h fun j hl hj => ?_
  have hm : ∀ j < 64, (0xffff : BitVec 64).getLsbD j = decide (j < 16) := by decide
  simp only [BitVec.getLsbD_or, BitVec.getLsbD_and, BitVec.getLsbD_not, hm j hj]
  grind

theorem vmudl_fits (s t : BitVec 16) :
    sext48 ((s.setWidth 64 * t.setWidth 64 : BitVec 64).sshiftRight 16) =
      (s.setWidth 64 * t.setWidth 64 : BitVec 64).sshiftRight 16 := by
  have h := abs_le.mp (abs_mul_le (abs_toNat_le s) (abs_toNat_le t))
  rw [sext48_eq_self_iff, toInt_vmudl, FitsS]
  omega

/-- Every vector operation leaves 48 bits in a lane. -/
theorem vecOp_fits {fn : BitVec 6} {op : BitVec 4 → BitVec 16 → BitVec 16 → Lane → Lane}
    (h : vecOp fn = some op) (e : BitVec 4) (s t : BitVec 16) {l : Lane}
    (hl : sext48 l.acc = l.acc) : sext48 (op e s t l).acc = (op e s t l).acc := by
  unfold vecOp at h
  split at h
  case h_25 => cases h
  all_goals obtain rfl := Option.some.inj h
  case h_2 => exact vmudl_fits s t
  case h_1 | h_3 | h_4 | h_5 | h_6 | h_7 | h_8 | h_9 => exact sext48_sext48 _
  case h_10 | h_11 | h_12 => exact sumSlice_fits hl _
  case h_13 => exact hl
  case h_15 =>
    simp only [Lane.clip]
    split_ifs <;> exact Lane.lowSlice_fits hl _
  all_goals exact Lane.lowSlice_fits hl _

theorem dma_fields (s : Rsp) (x : Word) (toRsp : Bool) :
    (s.dma x toRsp).r = s.r ∧ (s.dma x toRsp).acc = s.acc ∧
      (s.dma x toRsp).spStatus = s.spStatus := by
  have hat (i : ℕ) : (s.dmaAt x toRsp i).s.r = s.r ∧ (s.dmaAt x toRsp i).s.acc = s.acc ∧
      (s.dmaAt x toRsp i).s.spStatus = s.spStatus := by
    induction i with
    | zero => exact ⟨rfl, rfl, rfl⟩
    | succ i ih =>
      rw [dmaAt_succ]
      simp only [dmaRow]
      split_ifs <;> exact ih
  exact hat (dmaCount x)

theorem Inv.dma {s : Rsp} (h : s.Inv) (x : Word) (toRsp : Bool) : (s.dma x toRsp).Inv := by
  obtain ⟨hr, hacc, hst⟩ := s.dma_fields x toRsp
  have hin := s.dmaAt_inSpace x toRsp (dmaCount x)
  rw [← dmaRows_eq] at hin
  refine ⟨by rw [hr, h.r0], fun i => by rw [hacc, h.acc i], ?_, ?_, by rw [hst, h.spStatus]⟩
  · rw [toNat_spMemAddr_dma]
    have ho := hin.off
    rcases s.dmaBank_cases with hb | hb <;> omega
  · rw [toNat_spDramAddr_dma]
    exact hin.dram

theorem statusSignal_mask (x status : Word) {i : ℕ} (hi : i < 8)
    (h : status &&& ~~~(0x7f80 : Word) = 0) : statusSignal x status i &&& ~~~(0x7f80 : Word) = 0 := by
  have hbit : ((1 : Word) <<< (7 + i)) &&& ~~~(0x7f80 : Word) = 0 := by
    have hall : ∀ k : Fin 8, ((1 : Word) <<< (7 + k.val)) &&& ~~~(0x7f80 : Word) = 0 := by decide
    exact hall ⟨i, hi⟩
  -- setting and clearing stay inside the mask whatever the other bits of `x` say
  have hclear (y : Word) (hy : y &&& ~~~(0x7f80 : Word) = 0) (b : Word) :
      (y &&& b) &&& ~~~(0x7f80 : Word) = 0 := by
    rw [BitVec.and_assoc, BitVec.and_comm b, ← BitVec.and_assoc, hy]
    exact BitVec.zero_and
  have hset (y : Word) (hy : y &&& ~~~(0x7f80 : Word) = 0) :
      (y ||| (1 : Word) <<< (7 + i)) &&& ~~~(0x7f80 : Word) = 0 := by
    apply BitVec.eq_of_getLsbD_eq
    intro j hj
    have hyj := congrArg (fun z => z.getLsbD j) hy
    have hbj := congrArg (fun z => z.getLsbD j) hbit
    simp only [BitVec.getLsbD_and, BitVec.getLsbD_or] at hyj hbj ⊢
    rw [Bool.and_or_distrib_right, hyj, hbj, Bool.or_self]
  simp only [statusSignal]
  split_ifs
  · exact hset _ (hclear _ h _)
  · exact hset _ h
  · exact hclear _ h _
  · exact h

theorem Inv.applyStatusWrite {s : Rsp} (h : s.Inv) (x : Word) : (s.applyStatusWrite x).Inv := by
  have hfold (l : List ℕ) (hl : ∀ i ∈ l, i < 8) (y : Word) (hy : y &&& ~~~(0x7f80 : Word) = 0) :
      l.foldl (statusSignal x) y &&& ~~~(0x7f80 : Word) = 0 := by
    induction l generalizing y with
    | nil => exact hy
    | cons i l ih =>
      rw [List.foldl_cons]
      exact ih (fun j hj => hl j (List.mem_cons_of_mem _ hj)) _
        (statusSignal_mask x y (hl i (List.mem_cons_self ..)) hy)
  exact ⟨h.r0, h.acc, h.spMemAddr, h.spDramAddr,
    hfold _ (fun i hi => List.mem_range.mp hi) _ h.spStatus⟩

theorem Inv.mtc0 {s s' : Rsp} (h : s.Inv) {rd : BitVec 5} {x : Word} (hm : s.mtc0 rd x = some s') :
    s'.Inv := by
  unfold Rsp.mtc0 at hm
  split at hm
  case h_15 => cases hm
  all_goals obtain rfl := Option.some.inj hm
  case h_1 =>
    have hx : (x &&& 0x1fff).toNat = x.toNat % 0x2000 := by
      rw [BitVec.toNat_and]
      exact Nat.and_two_pow_sub_one_eq_mod x.toNat 13
    exact ⟨h.r0, h.acc, by simp only [hx]; omega, h.spDramAddr, h.spStatus⟩
  case h_2 =>
    have hx : (x &&& 0xffffff).toNat = x.toNat % 0x1000000 := by
      rw [BitVec.toNat_and]
      exact Nat.and_two_pow_sub_one_eq_mod x.toNat 24
    exact ⟨h.r0, h.acc, h.spMemAddr, by simp only [hx]; omega, h.spStatus⟩
  -- the lengths start a transfer, in either direction
  case h_3 | h_4 => exact h.dma _ _
  case h_5 => exact h.applyStatusWrite _
  all_goals exact h

theorem Inv.of_fields {s t : Rsp} (h : s.Inv) (h0 : t.r 0 = 0) (hacc : t.acc = s.acc)
    (hm : t.spMemAddr = s.spMemAddr) (hd : t.spDramAddr = s.spDramAddr)
    (hs : t.spStatus = s.spStatus) : t.Inv :=
  ⟨h0, by rw [hacc]; exact h.acc, by rw [hm]; exact h.spMemAddr, by rw [hd]; exact h.spDramAddr,
    by rw [hs]; exact h.spStatus⟩

/-- Every effect keeps the invariant, once `$0` is zeroed again. -/
theorem Inv.effect {s s' : Rsp} {w : Word} (h : s.Inv) (he : Effect s w s') : s'.zeroR0.Inv := by
  have h0 (t : Rsp) : t.zeroR0.r 0 = 0 := by simp [zeroR0, setR]
  cases he with
  | cop0 _ _ hm => exact (h.mtc0 hm).of_fields (h0 _) rfl rfl rfl rfl
  | lanes hop =>
    rw [vecLoop_eq]
    exact ⟨h0 _, fun i => vecOp_fits hop _ _ _ (h.acc i), h.spMemAddr, h.spDramAddr, h.spStatus⟩
  | flags which x =>
    have hf : (s.setVflags which x).acc = s.acc ∧ (s.setVflags which x).spMemAddr = s.spMemAddr ∧
        (s.setVflags which x).spDramAddr = s.spDramAddr ∧
        (s.setVflags which x).spStatus = s.spStatus := by
      unfold setVflags
      split_ifs <;> exact ⟨rfl, rfl, rfl, rfl⟩
    exact h.of_fields (h0 _) hf.1 hf.2.1 hf.2.2.1 hf.2.2.2
  | reg i x => exact h.of_fields (h0 _) rfl rfl rfl rfl
  | vec v => exact h.of_fields (h0 _) rfl rfl rfl rfl
  | store m _ _ => exact h.of_fields (h0 _) rfl rfl rfl rfl

end Rsp

def Word.Clean (a : Word) : Prop := a.toNat % 4 = 0 ∧ a.toNat < 0x1000

instance (a : Word) : Decidable (Word.Clean a) := inferInstanceAs (Decidable (_ ∧ _))

theorem Word.clean_and_ffc (a : Word) : Word.Clean (a &&& 0xffc) := by
  rw [Word.Clean, Word.toNat_and_ffc]
  omega

theorem Rsp.switch_clean {s : Rsp} {nextPc w : Word} {f : Rsp.Flow}
    (h : s.switch nextPc w = some f) : Word.Clean f.after := by
  have hstraight (h : (s.straight w).map
      (fun s' => (⟨s', (nextPc + 4) &&& 0xffc, false⟩ : Rsp.Flow)) = some f) : Word.Clean f.after := by
    obtain ⟨s', -, rfl⟩ := Option.map_eq_some_iff.mp h
    exact Word.clean_and_ffc _
  have hif (b : Bool) (x y : Word) :
      Word.Clean (if b then x &&& 0xffc else y &&& 0xffc) := by
    split_ifs <;> exact Word.clean_and_ffc _
  unfold Rsp.switch at h
  simp only at h
  split at h
  -- SPECIAL: jr, jalr and break are transfers, the rest is straight-line code
  case h_1 =>
    split at h
    case h_4 => exact hstraight h
    all_goals
      obtain rfl := Option.some.inj h
      exact Word.clean_and_ffc _
  case h_9 => exact hstraight h
  all_goals obtain rfl := Option.some.inj h
  case h_3 | h_4 => exact Word.clean_and_ffc _
  all_goals exact hif _ _ _

namespace RspT

structure Inv (c : RspT) : Prop where
  core : c.core.Inv
  pc : Word.Clean c.pc

theorem turn_cases {st : RspT × Word} {x : (RspT × Word) ⊕ RspT} (h : turn st = some x) :
    (∃ f, st.1.core.switch st.2 (fetch st.1.core.imem st.1.pc) = some f ∧
      x = .inl (⟨f.s.zeroR0, st.2, f.halted, st.1.nInsns + 1⟩, f.after)) ∨ x = .inr st.1 := by
  unfold turn at h
  simp only at h
  by_cases hh : st.1.halted
  · rw [if_pos hh] at h
    exact .inr (Option.some.inj h).symm
  · rw [if_neg hh] at h
    left
    cases hs : st.1.core.switch st.2 (fetch st.1.core.imem st.1.pc) with
    | none =>
      rw [hs] at h
      cases h
    | some f =>
      rw [hs] at h
      simp only at h
      split_ifs at h
      exact ⟨f, rfl, (Option.some.inj h).symm⟩

/-- A turn keeps the invariant and the clean `next_pc`. -/
theorem Inv.turn {st st' : RspT × Word} (h : st.1.Inv ∧ Word.Clean st.2)
    (ht : RspT.turn st = some (.inl st')) : st'.1.Inv ∧ Word.Clean st'.2 := by
  rcases turn_cases ht with ⟨f, hs, hx⟩ | hx
  · obtain rfl := Sum.inl.inj hx
    exact ⟨⟨h.1.core.effect (Rsp.effect_switch hs), h.2⟩, Rsp.switch_clean hs⟩
  · cases hx

theorem Inv.start {c : RspT} (h : c.Inv) (startPc : Word) :
    (c.start startPc).1.Inv ∧ Word.Clean (c.start startPc).2 :=
  ⟨⟨h.core, Word.clean_and_ffc _⟩, Word.clean_and_ffc _⟩

/-- The machine at rest: after any runs, with any transfers and status writes of the CPU
between them. -/
inductive History (c₀ : RspT) : RspT → Prop
  | boot : History c₀ c₀
  | dma {c : RspT} (h : History c₀ c) (x : Word) (toRsp : Bool) :
      History c₀ { c with core := c.core.dma x toRsp }
  | status {c : RspT} (h : History c₀ c) (x : Word) :
      History c₀ { c with core := c.core.applyStatusWrite x }
  | run {c c' : RspT} (h : History c₀ c) {n : ℕ} {startPc : Word} (hr : c.run n startPc = some c') :
      History c₀ c'

/-- A run returns the machine of its last boundary. -/
theorem Inv.run {c c' : RspT} (h : c.Inv) {n : ℕ} {startPc : Word} (hr : c.run n startPc = some c') :
    c'.Inv := by
  obtain ⟨st, hst, hlast⟩ := Lib.loop_inv (fun st : RspT × Word => st.1.Inv ∧ Word.Clean st.2)
    (fun _ _ hs ht => Inv.turn hs ht) (h.start startPc) hr
  rcases turn_cases hlast with ⟨f, -, hx⟩ | hx
  · cases hx
  · obtain rfl := Sum.inr.inj hx
    exact hst.1

theorem History.inv {c₀ c : RspT} (h : History c₀ c) (h₀ : c₀.Inv) : c.Inv := by
  induction h with
  | boot => exact h₀
  | dma _ x toRsp ih => exact ⟨ih.core.dma x toRsp, ih.pc⟩
  | status _ x ih => exact ⟨ih.core.applyStatusWrite x, ih.pc⟩
  | run _ hr ih => exact ih.run hr

/-- The invariant holds between runs and at every instruction boundary of every run, and no
vector operation overflows there. -/
theorem history_inv {c₀ : RspT} (h₀ : c₀.Inv) {c : RspT} (h : History c₀ c) :
    c.Inv ∧ ∀ startPc st, Lib.Turns turn (c.start startPc) st →
      st.1.Inv ∧ Word.Clean st.2 ∧ st.1.core.NoOverflow := by
  have hc := h.inv h₀
  refine ⟨hc, fun startPc st ht => ?_⟩
  have hst := ht.inv (fun st : RspT × Word => st.1.Inv ∧ Word.Clean st.2)
    (fun _ _ hs hb => Inv.turn hs hb) (hc.start startPc)
  exact ⟨hst.1, hst.2, hst.1.core.noOverflow⟩

def reset : RspT := ⟨Rsp.init, 0, true, 0⟩

theorem reset_inv : reset.Inv :=
  ⟨⟨rfl, fun _ => (by decide : Rsp.sext48 0 = 0), by decide, by decide, by decide⟩, by decide⟩

/-- After two rows of a transfer from the reset state. -/
theorem history_inv_reset :
    (⟨Rsp.init.dma 0x00101007 true, 0, true, 0⟩ : RspT).Inv ∧ ∀ startPc st,
      Lib.Turns turn (start ⟨Rsp.init.dma 0x00101007 true, 0, true, 0⟩ startPc) st →
        st.1.Inv ∧ Word.Clean st.2 ∧ st.1.core.NoOverflow :=
  history_inv reset_inv (.dma .boot 0x00101007 true)

end RspT

end RspBt
