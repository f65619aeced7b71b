import Mathlib.Tactic.IntervalCases
import RspBt.Rsp.Exact
import RspBt.Rsp.Run

namespace RspBt.Rsp

open Lib

def hi16 (x : Word) : BitVec 16 := x.extractLsb' 16 16
def lo16 (x : Word) : BitVec 16 := x.extractLsb' 0 16

structure IsVec (w : Word) (fn : BitVec 6) : Prop where
  op : w.op = 0x12
  isVecOp : w.isVecOp = true
  fn : w.fn = fn

structure Feeds (s : Rsp) (w : Word) (i : Fin 8) (x y : BitVec 16) : Prop where
  vs : s.v w.rd i = x
  vt : s.v w.rt (vtLane w.vecE i) = y

def Spares (w w' : Word) : Prop := w'.rd ≠ w.sa ∧ w'.rt ≠ w.sa

instance (w w' : Word) : Decidable (Spares w w') := inferInstanceAs (Decidable (_ ∧ _))

theorem straight_vec {w : Word} {fn : BitVec 6} (hw : IsVec w fn)
    {op : BitVec 4 → BitVec 16 → BitVec 16 → Lane → Lane} (hop : vecOp fn = some op) (s : Rsp) :
    s.straight w = some (s.putLanes w.sa fun i =>
      op w.vecE (s.v w.rd i) (s.v w.rt (vtLane w.vecE i)) (s.lanes i)) := by
  rw [← hw.fn] at hop
  have hc : s.straight w = s.cop2 w := by
    simp only [straight, hw.op]
    rfl
  rw [hc, cop2, if_neg (by simp [hw.isVecOp]), hop, Option.map_some, vecLoop_eq]

theorem straight_lane {w : Word} {fn : BitVec 6} (hw : IsVec w fn)
    {op : BitVec 4 → BitVec 16 → BitVec 16 → Lane → Lane} (hop : vecOp fn = some op) {s : Rsp}
    {i : Fin 8} {x y : BitVec 16} (hf : s.Feeds w i x y) :
    ∃ s', s.straight w = some s' ∧
      s'.v w.sa i = (op w.vecE x y (s.lanes i)).res ∧
      s'.lanes i = { op w.vecE x y (s.lanes i) with res := 0 } ∧
      ∀ r ≠ w.sa, s'.v r = s.v r := by
  refine ⟨_, straight_vec hw hop s, ?_, ?_, fun r hr => ?_⟩
  · simp only [putLanes, Function.update_self, hf.vs, hf.vt]
  · simp only [putLanes, lanes, hf.vs, hf.vt]
  · exact Function.update_of_ne hr _ _

/-- An operation that spares the operands of a later one leaves them fed. -/
theorem Feeds.after {s s' : Rsp} {w w' : Word} {i : Fin 8} {x y : BitVec 16} (h : s.Feeds w' i x y)
    (hw : Spares w w') (hv : ∀ r ≠ w.sa, s'.v r = s.v r) : s'.Feeds w' i x y :=
  ⟨by rw [hv _ hw.1, h.vs], by rw [hv _ hw.2, h.vt]⟩

theorem acc_of_lanes {s : Rsp} {i : Fin 8} {l : Lane} (h : s.lanes i = l) : s.acc i = l.acc :=
  congrArg Lane.acc h

theorem accSlice_low (a x : BitVec 64) :
    ((a &&& ~~~(0xffff : BitVec 64)) ||| (x &&& 0xffff)).extractLsb' 0 16 = x.setWidth 16 := by
  have hm : ∀ j < 64, (0xffff : BitVec 64).getLsbD j = decide (j < 16) := by decide
  apply BitVec.eq_of_getLsbD_eq
  intro j hj
  simp only [BitVec.getLsbD_extractLsb', BitVec.getLsbD_or, BitVec.getLsbD_and, BitVec.getLsbD_not,
    BitVec.getLsbD_setWidth, Nat.zero_add, hm j (by omega)]
  grind

theorem accSlice_high (a x : BitVec 64) :
    ((a &&& ~~~(0xffff : BitVec 64)) ||| (x &&& 0xffff)).extractLsb' 16 48 = a.extractLsb' 16 48 := by
  have hm : ∀ j < 64, (0xffff : BitVec 64).getLsbD j = decide (j < 16) := by decide
  apply BitVec.eq_of_getLsbD_eq
  intro j hj
  simp only [BitVec.getLsbD_extractLsb', BitVec.getLsbD_or, BitVec.getLsbD_and, BitVec.getLsbD_not,
    hm (16 + j) (by omega)]
  grind

/-- The words of vadd and vsub hold the integers they stand for. -/
theorem toInt_vadd (s t : BitVec 16) (c : Bool) :
    (s.signExtend 64 + t.signExtend 64 + (if c then 1 else 0) : BitVec 64).toInt =
      s.toInt + t.toInt + c.toInt := by
  let l : Lane := ⟨0, c, false, false, false, false, 0⟩
  have h := toInt_exp 0x10 (List.mem_singleton_self _) (s := s) (t := t) (l := l)
    (show FitsS 48 (0 : BitVec 64).toInt by decide)
  simp only [IntExp.value, toInt_ss, toInt_tt, toInt_carry] at h
  exact h

theorem toInt_vsub (s t : BitVec 16) (c : Bool) :
    (s.signExtend 64 - t.signExtend 64 - (if c then 1 else 0) : BitVec 64).toInt =
      s.toInt - t.toInt - c.toInt := by
  let l : Lane := ⟨0, c, false, false, false, false, 0⟩
  have h := toInt_exp 0x11 (List.mem_singleton_self _) (s := s) (t := t) (l := l)
    (show FitsS 48 (0 : BitVec 64).toInt by decide)
  simp only [IntExp.value, toInt_ss, toInt_tt, toInt_carry] at h
  exact h

/-- vaddc on the low halves, vadd on the high ones. -/
structure DoubleSum (s s₂ : Rsp) (w₁ w₂ : Word) (i : Fin 8) (x y : Word) : Prop where
  low : s₂.v w₁.sa i = lo16 (x + y)
  accLow : (s₂.acc i).extractLsb' 0 16 = hi16 (x + y)
  high : s₂.v w₂.sa i =
    satS 16 ((hi16 x).toInt + (hi16 y).toInt + ((lo16 x).toNat + (lo16 y).toNat) / 2 ^ 16)
  accHigh : (s₂.acc i).extractLsb' 16 48 = (s.acc i).extractLsb' 16 48
  vco : s₂.vcoL i = false ∧ s₂.vcoH i = false

/-- vsubc on the low halves, vsub on the high ones. -/
structure DoubleDifference (s₂ : Rsp) (w₁ w₂ : Word) (i : Fin 8) (x y : Word) : Prop where
  low : s₂.v w₁.sa i = lo16 (x - y)
  accLow : (s₂.acc i).extractLsb' 0 16 = hi16 (x - y)
  high : s₂.v w₂.sa i =
    satS 16 ((hi16 x).toInt - (hi16 y).toInt - ((lo16 x).ult (lo16 y)).toInt)

theorem lo16_add (x y : Word) : lo16 (x + y) = lo16 x + lo16 y := by
  apply BitVec.eq_of_toNat_eq
  simp only [lo16, BitVec.toNat_add, BitVec.extractLsb'_toNat, Nat.shiftRight_zero]
  omega

theorem hi16_add (x y : Word) (c : Bool) (hc : c.toNat = ((lo16 x).toNat + (lo16 y).toNat) / 2 ^ 16) :
    hi16 (x + y) = hi16 x + hi16 y + BitVec.ofNat 16 c.toNat := by
  apply BitVec.eq_of_toNat_eq
  rw [hc]
  simp only [hi16, lo16, BitVec.toNat_add, BitVec.extractLsb'_toNat,
    BitVec.toNat_ofNat, Nat.shiftRight_eq_div_pow]
  have hx := x.isLt
  have hy := y.isLt
  omega

/-- The bit vaddc keeps is the carry of the unsigned sum. -/
theorem carry_eq (a b : BitVec 16) :
    (((a.setWidth 64 + b.setWidth 64 : BitVec 64).sshiftRight 16 &&& 1) != 0).toNat =
      (a.toNat + b.toNat) / 2 ^ 16 := by
  have ha := a.isLt
  have hb := b.isLt
  have hs := toNat_sum64 a b
  generalize (a.setWidth 64 + b.setWidth 64 : BitVec 64) = x at *
  have h1 : (x.sshiftRight 16 &&& 1) = if x.getLsbD 16 then 1 else 0 := by
    rw [show (1 : BitVec 64) = BitVec.twoPow 64 0 from rfl, BitVec.and_twoPow,
      BitVec.getLsbD_sshiftRight]
    rfl
  have h16 : x.getLsbD 16 = decide (x.toNat / 2 ^ 16 % 2 = 1) := by
    rw [BitVec.getLsbD, Nat.testBit_eq_decide_div_mod_eq]
  rw [h1, h16, hs]
  by_cases h : (a.toNat + b.toNat) / 2 ^ 16 % 2 = 1
  · rw [if_pos (decide_eq_true h)]
    have : ((1 : BitVec 64) != 0).toNat = 1 := by decide
    omega
  · rw [if_neg (by simpa using h)]
    have : ((0 : BitVec 64) != 0).toNat = 0 := by decide
    omega

theorem setWidth_sum (a b : BitVec 16) : (a.setWidth 64 + b.setWidth 64 : BitVec 64).setWidth 16 = a + b := by
  rw [BitVec.setWidth_add _ _ (by decide), BitVec.setWidth_setWidth_of_le _ (by decide),
    BitVec.setWidth_setWidth_of_le _ (by decide), BitVec.setWidth_eq, BitVec.setWidth_eq]

theorem setWidth_vadd (a b : BitVec 16) (c : Bool) :
    (a.signExtend 64 + b.signExtend 64 + (if c then 1 else 0) : BitVec 64).setWidth 16 =
      a + b + BitVec.ofNat 16 c.toNat := by
  rw [setWidth_eq_ofInt (by decide), toInt_vadd, boolToInt, BitVec.ofInt_add, BitVec.ofInt_add,
    BitVec.ofInt_toInt, BitVec.ofInt_toInt, BitVec.ofInt_natCast]

theorem setWidth_vsub (a b : BitVec 16) (c : Bool) :
    (a.signExtend 64 - b.signExtend 64 - (if c then 1 else 0) : BitVec 64).setWidth 16 =
      a - b - BitVec.ofNat 16 c.toNat := by
  rw [setWidth_eq_ofInt (by decide), toInt_vsub, boolToInt, ofInt_sub, ofInt_sub,
    BitVec.ofInt_toInt, BitVec.ofInt_toInt, BitVec.ofInt_natCast]

/-- The two instructions of a double-precision sum. -/
theorem doubleSum {w₁ w₂ : Word} (h₁ : IsVec w₁ 0x14) (h₂ : IsVec w₂ 0x10) (hs : Spares w₁ w₂)
    (hd : w₂.sa ≠ w₁.sa) {s : Rsp} {i : Fin 8} {x y : Word} (hl : s.Feeds w₁ i (lo16 x) (lo16 y))
    (hh : s.Feeds w₂ i (hi16 x) (hi16 y)) :
    ∃ s₁ s₂, s.straight w₁ = some s₁ ∧ s₁.straight w₂ = some s₂ ∧ DoubleSum s s₂ w₁ w₂ i x y := by
  obtain ⟨s₁, he₁, hr₁, hl₁, hv₁⟩ := straight_lane h₁ rfl hl
  obtain ⟨s₂, he₂, hr₂, hl₂, hv₂⟩ := straight_lane h₂ rfl (hh.after hs hv₁)
  have hc := carry_eq (lo16 x) (lo16 y)
  have hcz : ((((lo16 x).toNat + (lo16 y).toNat : ℕ) : ℤ) / 2 ^ 16) = Bool.toInt
      (((lo16 x).setWidth 64 + (lo16 y).setWidth 64 : BitVec 64).sshiftRight 16 &&& 1 != 0) := by
    rw [boolToInt, hc]
    push_cast
    rfl
  rw [hl₁] at hr₂ hl₂
  refine ⟨s₁, s₂, he₁, he₂, ⟨?_, ?_, ?_, ?_, ?_⟩⟩
  · rw [hv₂ _ hd.symm, hr₁, lo16_add, ← setWidth_sum]
    exact trunc_low16 _
  · rw [acc_of_lanes hl₂, accSlice_low, setWidth_vadd, hi16_add x y _ hc]
  · rw [hr₂]
    change clampS16 _ = _
    rw [clampS16_eq, toInt_vadd, ← hcz]
    push_cast
    rfl
  · rw [acc_of_lanes hl₂, accSlice_high]
    exact accSlice_high _ _
  · exact ⟨congrArg Lane.vcoL hl₂, congrArg Lane.vcoH hl₂⟩

theorem lo16_sub (x y : Word) : lo16 (x - y) = lo16 x - lo16 y := by
  apply BitVec.eq_of_toNat_eq
  simp only [lo16, BitVec.toNat_sub, BitVec.extractLsb'_toNat, Nat.shiftRight_zero]
  have hx := x.isLt
  have hy := y.isLt
  omega

theorem hi16_sub (x y : Word) :
    hi16 (x - y) = hi16 x - hi16 y - BitVec.ofNat 16 ((lo16 x).ult (lo16 y)).toNat := by
  have hb : ((lo16 x).ult (lo16 y)).toNat = if (lo16 x).toNat < (lo16 y).toNat then 1 else 0 := by
    rw [BitVec.ult]
    split_ifs with h <;> simp [h]
  apply BitVec.eq_of_toNat_eq
  rw [hb]
  simp only [hi16, lo16, BitVec.toNat_sub, BitVec.extractLsb'_toNat, BitVec.toNat_ofNat,
    Nat.shiftRight_eq_div_pow]
  have hx := x.isLt
  have hy := y.isLt
  split_ifs <;> omega

/-- vsubc borrows when the halves compare less as signed values. -/
theorem borrow_eq (a b : BitVec 16) :
    (a.signExtend 32 - b.signExtend 32 : Word).slt 0 = a.slt b := by
  rw [BitVec.slt_eq_decide, BitVec.slt_eq_decide, (toInt_vsubc a b).1]
  apply decide_eq_decide.mpr
  rw [show (0 : Word).toInt = 0 from rfl]
  omega

/-- The signed borrow is the unsigned one when the low halves have the same top bit. -/
theorem borrow_iff (x y : Word) :
    (lo16 x).slt (lo16 y) = (lo16 x).ult (lo16 y) ↔ x.getLsbD 15 = y.getLsbD 15 := by
  have hm (z : Word) : (lo16 z).msb = z.getLsbD 15 := by
    rw [BitVec.msb_eq_getLsbD_last, lo16, BitVec.getLsbD_extractLsb']
    rfl
  rw [BitVec.slt_eq_ult, hm, hm]
  cases x.getLsbD 15 <;> cases y.getLsbD 15 <;> simp

theorem setWidth_vsubc (a b : BitVec 16) :
    (a.signExtend 32 - b.signExtend 32 : Word).setWidth 16 = a - b := by
  rw [setWidth_eq_ofInt (by decide), (toInt_vsubc a b).1, ofInt_sub, BitVec.ofInt_toInt,
    BitVec.ofInt_toInt]

/-- The two instructions of a double-precision difference: right when the low halves have the
same top bit, and then only. -/
theorem doubleDifference {w₁ w₂ : Word} (h₁ : IsVec w₁ 0x15) (h₂ : IsVec w₂ 0x11)
    (hs : Spares w₁ w₂) (hd : w₂.sa ≠ w₁.sa) {s : Rsp} {i : Fin 8} {x y : Word}
    (hl : s.Feeds w₁ i (lo16 x) (lo16 y)) (hh : s.Feeds w₂ i (hi16 x) (hi16 y)) :
    ∃ s₁ s₂, s.straight w₁ = some s₁ ∧ s₁.straight w₂ = some s₂ ∧
      (DoubleDifference s₂ w₁ w₂ i x y ↔ x.getLsbD 15 = y.getLsbD 15) := by
  obtain ⟨s₁, he₁, hr₁, hl₁, hv₁⟩ := straight_lane h₁ rfl hl
  obtain ⟨s₂, he₂, hr₂, hl₂, hv₂⟩ := straight_lane h₂ rfl (hh.after hs hv₁)
  have hb : (s₁.lanes i).vcoL = (lo16 x).slt (lo16 y) := by
    rw [hl₁]
    exact borrow_eq _ _
  have hlow : s₂.v w₁.sa i = lo16 (x - y) := by
    rw [hv₂ _ hd.symm, hr₁, lo16_sub]
    exact setWidth_vsubc _ _
  have hacc : (s₂.acc i).extractLsb' 0 16 =
      hi16 x - hi16 y - BitVec.ofNat 16 ((lo16 x).slt (lo16 y)).toNat := by
    rw [acc_of_lanes hl₂, accSlice_low, setWidth_vsub, hb]
  have hres : s₂.v w₂.sa i =
      satS 16 ((hi16 x).toInt - (hi16 y).toInt - ((lo16 x).slt (lo16 y)).toInt) := by
    rw [hr₂]
    change clampS16 _ = _
    rw [clampS16_eq, toInt_vsub, hb]
  refine ⟨s₁, s₂, he₁, he₂, fun h => ?_, fun h => ?_⟩
  · apply (borrow_iff x y).mp
    have heq := h.accLow
    rw [hacc, hi16_sub, BitVec.sub_right_inj] at heq
    revert heq
    cases (lo16 x).slt (lo16 y) <;> cases (lo16 x).ult (lo16 y) <;> decide
  · have hu := (borrow_iff x y).mpr h
    exact ⟨hlow, by rw [hacc, hu, hi16_sub], by rw [hres, hu]⟩

def withHalves (x y : Word) : Rsp :=
  { init with v := fun r _ =>
      if r = 1 then lo16 x else if r = 2 then lo16 y else if r = 3 then hi16 x
      else if r = 4 then hi16 y else 0 }

/-- `vsubc $v5, $v1, $v2` and `vsub $v6, $v3, $v4` on 7 and 5. -/
theorem doubleDifference_seven :
    ∃ s₁ s₂, (withHalves 7 5).straight 0x4a020955 = some s₁ ∧ s₁.straight 0x4a041991 = some s₂ ∧
      (DoubleDifference s₂ 0x4a020955 0x4a041991 0 7 5 ↔ (7 : Word).getLsbD 15 = (5 : Word).getLsbD 15) :=
  doubleDifference ⟨rfl, rfl, rfl⟩ ⟨rfl, rfl, rfl⟩ (by decide) (by decide) ⟨rfl, rfl⟩ ⟨rfl, rfl⟩

/-- `0x8000 - 1`: the low halves are compared as -32768 and 1. -/
theorem not_doubleDifference :
    ¬ ∃ s₁ s₂, (withHalves 0x8000 1).straight 0x4a020955 = some s₁ ∧
      s₁.straight 0x4a041991 = some s₂ ∧ DoubleDifference s₂ 0x4a020955 0x4a041991 0 0x8000 1 := by
  rintro ⟨s₁, s₂, h₁, h₂, hd⟩
  have hw₁ : IsVec 0x4a020955 0x15 := ⟨rfl, rfl, rfl⟩
  have hw₂ : IsVec 0x4a041991 0x11 := ⟨rfl, rfl, rfl⟩
  obtain rfl := Option.some.inj ((straight_vec hw₁ rfl _).symm.trans h₁)
  obtain rfl := Option.some.inj ((straight_vec hw₂ rfl _).symm.trans h₂)
  have hacc := hd.accLow
  revert hacc
  decide

/-- The operands of the first four products, with what follows them. -/
structure DoubleProduct (s₄ : Rsp) (w₄ : Word) (i : Fin 8) (x y : Word) : Prop where
  acc : (s₄.acc i).toInt = x.toInt * y.toInt / 2 ^ 16
  fits : FitsS 48 (x.toInt * y.toInt / 2 ^ 16)
  high : s₄.v w₄.sa i = hi16 (satS 32 (x.toInt * y.toInt / 2 ^ 16))
  /-- A vmadn with a zero operand. -/
  low : ∀ w₅, IsVec w₅ 0x0e → s₄.v w₅.rd i = 0 ∨ s₄.v w₅.rt (vtLane w₅.vecE i) = 0 →
    ∃ s₅, s₄.straight w₅ = some s₅ ∧ s₅.acc i = s₄.acc i ∧
      s₅.v w₅.sa i = lo16 (satS 32 (x.toInt * y.toInt / 2 ^ 16))
  /-- vsar, at once or later. -/
  slices : ∀ (s : Rsp) (w₆ : Word), s.acc i = s₄.acc i → IsVec w₆ 0x1d →
    ∃ s₆, s.straight w₆ = some s₆ ∧ s₆.acc i = s₄.acc i ∧
      (w₆.vecE = 8 → s₆.v w₆.sa i = (s₄.acc i).extractLsb' 32 16) ∧
      (w₆.vecE = 9 → s₆.v w₆.sa i = (s₄.acc i).extractLsb' 16 16) ∧
      (w₆.vecE = 10 → s₆.v w₆.sa i = (s₄.acc i).extractLsb' 0 16)

/-- A signed value is its high half and its unsigned low half. -/
theorem toInt_halves (x : Word) : x.toInt = (hi16 x).toInt * 2 ^ 16 + (lo16 x).toNat := by
  have hx := x.isLt
  rw [BitVec.toInt_eq_toNat_cond, BitVec.toInt_eq_toNat_cond]
  simp only [hi16, lo16, BitVec.extractLsb'_toNat, Nat.shiftRight_eq_div_pow]
  split_ifs <;> omega

/-- Four partial products make the product, shifted. -/
theorem product_halves (a c : ℤ) (b d : ℤ) :
    (a * 2 ^ 16 + b) * (c * 2 ^ 16 + d) / 2 ^ 16 = b * d / 2 ^ 16 + a * d + b * c + a * c * 2 ^ 16 := by
  rw [show (a * 2 ^ 16 + b) * (c * 2 ^ 16 + d) = b * d + (a * d + b * c + a * c * 2 ^ 16) * 2 ^ 16 by ring,
    Int.add_mul_ediv_right _ _ (by norm_num)]
  ring

theorem toInt_sext48_of_fits {x : BitVec 64} {z : ℤ} (hx : x.toInt = z) (hz : FitsS 48 z) :
    (sext48 x).toInt = z := by
  rw [toInt_sext48, hx]
  obtain ⟨hl, hr⟩ := hz
  apply Int.bmod_eq_of_le <;> omega

theorem toInt_vmadm {s t : BitVec 16} {l : Lane} (hl : FitsS 48 l.acc.toInt)
    (hz : FitsS 48 (l.acc.toInt + s.toInt * t.toNat)) :
    (sext48 (l.acc + s.signExtend 64 * t.setWidth 64)).toInt = l.acc.toInt + s.toInt * t.toNat := by
  refine toInt_sext48_of_fits ?_ hz
  have h := toInt_exp 0x0d (List.mem_singleton_self _) (s := s) (t := t) hl
  simp only [IntExp.value, toInt_ss, toInt_tu, toInt_acc] at h
  exact h

theorem toInt_vmadn {s t : BitVec 16} {l : Lane} (hl : FitsS 48 l.acc.toInt)
    (hz : FitsS 48 (l.acc.toInt + s.toNat * t.toInt)) :
    (sext48 (l.acc + s.setWidth 64 * t.signExtend 64)).toInt = l.acc.toInt + s.toNat * t.toInt := by
  refine toInt_sext48_of_fits ?_ hz
  have h := toInt_exp 0x0e (List.mem_singleton_self _) (s := s) (t := t) hl
  simp only [IntExp.value, toInt_su, toInt_tt, toInt_acc] at h
  exact h

theorem toInt_vmadh {s t : BitVec 16} {l : Lane} (hl : FitsS 48 l.acc.toInt)
    (hz : FitsS 48 (l.acc.toInt + s.toInt * t.toInt * 2 ^ 16)) :
    (sext48 (l.acc + (s.signExtend 64 * t.signExtend 64) <<< 16)).toInt =
      l.acc.toInt + s.toInt * t.toInt * 2 ^ 16 := by
  refine toInt_sext48_of_fits ?_ hz
  have h := toInt_exp 0x0f (List.mem_singleton_self _) (s := s) (t := t) hl
  simp only [IntExp.value, toInt_ss, toInt_tt, toInt_acc] at h
  exact h

theorem vsar_slice {s : Rsp} {w : Word} (hw : IsVec w 0x1d) (i : Fin 8) :
    ∃ s', s.straight w = some s' ∧ s'.acc i = s.acc i ∧
      (w.vecE = 8 → s'.v w.sa i = (s.acc i).extractLsb' 32 16) ∧
      (w.vecE = 9 → s'.v w.sa i = (s.acc i).extractLsb' 16 16) ∧
      (w.vecE = 10 → s'.v w.sa i = (s.acc i).extractLsb' 0 16) := by
  obtain ⟨s', he, hr, hl, -⟩ := straight_lane hw rfl (⟨rfl, rfl⟩ : s.Feeds w i _ _)
  have hslice (k : ℕ) (hk : k ≤ 48) :
      ((s.acc i).sshiftRight k).setWidth 16 = (s.acc i).extractLsb' k 16 := by
    apply BitVec.eq_of_getLsbD_eq
    intro j hj
    simp only [BitVec.getLsbD_setWidth, BitVec.getLsbD_sshiftRight, BitVec.getLsbD_extractLsb']
    grind
  refine ⟨s', he, acc_of_lanes hl, fun h => ?_, fun h => ?_, fun h => ?_⟩
  · rw [hr, h]
    exact hslice 32 (by decide)
  · rw [hr, h]
    exact hslice 16 (by decide)
  · rw [hr, h, ← hslice 0 (by decide), BitVec.sshiftRight_zero]
    rfl

/-- A vmadn with a zero operand leaves the accumulator and returns its low slice, clamped. -/
theorem vmadn_zero {s : Rsp} {w : Word} (hw : IsVec w 0x0e) {i : Fin 8} (hfit : FitsS 48 (s.acc i).toInt)
    (hz : s.v w.rd i = 0 ∨ s.v w.rt (vtLane w.vecE i) = 0) :
    ∃ s', s.straight w = some s' ∧ s'.acc i = s.acc i ∧
      s'.v w.sa i = lo16 (satS 32 (s.acc i).toInt) := by
  obtain ⟨s', he, hr, hl, -⟩ := straight_lane hw rfl (⟨rfl, rfl⟩ : s.Feeds w i _ _)
  have hp : ((s.v w.rd i).setWidth 64 * (s.v w.rt (vtLane w.vecE i)).signExtend 64 : BitVec 64) = 0#64 := by
    rcases hz with h | h <;> simp [h]
  have hacc : sext48 ((s.lanes i).acc + (s.v w.rd i).setWidth 64 *
      (s.v w.rt (vtLane w.vecE i)).signExtend 64) = s.acc i := by
    rw [hp, BitVec.add_zero]
    exact (sext48_eq_self_iff _).mpr hfit
  have hres : s'.v w.sa i = clampAccLow (sext48 ((s.lanes i).acc + (s.v w.rd i).setWidth 64 *
      (s.v w.rt (vtLane w.vecE i)).signExtend 64)) := by
    rw [hr]
    simp only [Lane.accLow]
  have ha : s'.acc i = sext48 ((s.lanes i).acc + (s.v w.rd i).setWidth 64 *
      (s.v w.rt (vtLane w.vecE i)).signExtend 64) := by
    rw [acc_of_lanes hl]
    simp only [Lane.accLow]
  refine ⟨s', he, ha.trans hacc, ?_⟩
  rw [hres, hacc, clampAccLow_eq, lo16]

/-- What vmudl, vmadm, vmadn and vmadh add to the accumulator, in this order. -/
def partialProduct (x y : Word) : ℕ → ℤ
  | 0 => (lo16 x).toNat * (lo16 y).toNat / 2 ^ 16
  | 1 => (hi16 x).toInt * (lo16 y).toNat
  | 2 => (lo16 x).toNat * (hi16 y).toInt
  | _ => (hi16 x).toInt * (hi16 y).toInt * 2 ^ 16

def partialSum (x y : Word) : ℕ → ℤ
  | 0 => 0
  | k + 1 => partialSum x y k + partialProduct x y k

theorem partialSum_four (x y : Word) : partialSum x y 4 = x.toInt * y.toInt / 2 ^ 16 := by
  rw [toInt_halves x, toInt_halves y, product_halves]
  simp only [partialSum, partialProduct, zero_add]

/-- No partial sum overflows the accumulator. -/
theorem partialSum_fits (x y : Word) {k : ℕ} (hk : k ≤ 4) : FitsS 48 (partialSum x y k) := by
  have hul := abs_le.mp (abs_mul_le (abs_toNat_le (lo16 x)) (abs_toNat_le (lo16 y)))
  have hsl := abs_le.mp (abs_mul_le (abs_toInt_le (hi16 x)) (abs_toNat_le (lo16 y)))
  have hus := abs_le.mp (abs_mul_le (abs_toNat_le (lo16 x)) (abs_toInt_le (hi16 y)))
  have hss := abs_le.mp (abs_mul_le (abs_toInt_le (hi16 x)) (abs_toInt_le (hi16 y)))
  interval_cases k
  all_goals
    simp only [partialSum, partialProduct, FitsS]
    omega

/-- Four multiply-accumulates make the product of two 32-bit values, shifted right by 16. -/
theorem doubleProduct {w₁ w₂ w₃ w₄ : Word} (h₁ : IsVec w₁ 0x04) (h₂ : IsVec w₂ 0x0d)
    (h₃ : IsVec w₃ 0x0e) (h₄ : IsVec w₄ 0x0f) (h₁₂ : Spares w₁ w₂) (h₁₃ : Spares w₁ w₃)
    (h₁₄ : Spares w₁ w₄) (h₂₃ : Spares w₂ w₃) (h₂₄ : Spares w₂ w₄) (h₃₄ : Spares w₃ w₄)
    {s : Rsp} {i : Fin 8} {x y : Word}
    (hll : s.Feeds w₁ i (lo16 x) (lo16 y)) (hhl : s.Feeds w₂ i (hi16 x) (lo16 y))
    (hlh : s.Feeds w₃ i (lo16 x) (hi16 y)) (hhh : s.Feeds w₄ i (hi16 x) (hi16 y)) :
    ∃ s₁ s₂ s₃ s₄, s.straight w₁ = some s₁ ∧ s₁.straight w₂ = some s₂ ∧ s₂.straight w₃ = some s₃ ∧
      s₃.straight w₄ = some s₄ ∧ DoubleProduct s₄ w₄ i x y := by
  obtain ⟨s₁, he₁, -, hl₁, hv₁⟩ := straight_lane h₁ rfl hll
  obtain ⟨s₂, he₂, -, hl₂, hv₂⟩ := straight_lane h₂ rfl (hhl.after h₁₂ hv₁)
  obtain ⟨s₃, he₃, -, hl₃, hv₃⟩ := straight_lane h₃ rfl ((hlh.after h₁₃ hv₁).after h₂₃ hv₂)
  obtain ⟨s₄, he₄, hr₄, hl₄, hv₄⟩ :=
    straight_lane h₄ rfl (((hhh.after h₁₄ hv₁).after h₂₄ hv₂).after h₃₄ hv₃)
  have ha₁ : (s₁.lanes i).acc.toInt = partialSum x y 1 := by
    rw [hl₁, partialSum, partialSum, zero_add]
    exact toInt_vmudl _ _
  have hf₁ : FitsS 48 (s₁.lanes i).acc.toInt := ha₁ ▸ partialSum_fits x y (by omega)
  have ha₂ : (s₂.lanes i).acc.toInt = partialSum x y 2 := by
    rw [hl₂, partialSum, ← ha₁]
    apply toInt_vmadm hf₁
    rw [ha₁]
    exact partialSum_fits x y (by omega : 2 ≤ 4)
  have hf₂ : FitsS 48 (s₂.lanes i).acc.toInt := ha₂ ▸ partialSum_fits x y (by omega)
  have ha₃ : (s₃.lanes i).acc.toInt = partialSum x y 3 := by
    rw [hl₃, partialSum, ← ha₂]
    apply toInt_vmadn hf₂
    rw [ha₂]
    exact partialSum_fits x y (by omega : 3 ≤ 4)
  have hf₃ : FitsS 48 (s₃.lanes i).acc.toInt := ha₃ ▸ partialSum_fits x y (by omega)
  have hacc : (s₄.acc i).toInt = x.toInt * y.toInt / 2 ^ 16 := by
    rw [acc_of_lanes hl₄, ← partialSum_four, partialSum, ← ha₃]
    apply toInt_vmadh hf₃
    rw [ha₃]
    exact partialSum_fits x y (le_refl 4)
  have hfit : FitsS 48 (s₄.acc i).toInt := by
    rw [hacc, ← partialSum_four]
    exact partialSum_fits x y le_rfl
  refine ⟨s₁, s₂, s₃, s₄, he₁, he₂, he₃, he₄, hacc, by rwa [← hacc], ?_, fun w₅ h₅ hz => ?_,
    fun s' w₆ hs' h₆ => ?_⟩
  · rw [hr₄, ← hacc, acc_of_lanes hl₄]
    exact clampS16_mid _
  · rw [← hacc]
    exact vmadn_zero h₅ hfit hz
  · rw [← hs']
    exact vsar_slice h₆ i

/-- `(-2^31)^2`, by vmudl, vmadm, vmadn and vmadh into `$v5` to `$v8`. -/
theorem doubleProduct_min :
    ∃ s₁ s₂ s₃ s₄, (withHalves 0x80000000 0x80000000).straight 0x4a020944 = some s₁ ∧
      s₁.straight 0x4a02198d = some s₂ ∧ s₂.straight 0x4a0409ce = some s₃ ∧
      s₃.straight 0x4a041a0f = some s₄ ∧ DoubleProduct s₄ 0x4a041a0f 0 0x80000000 0x80000000 :=
  doubleProduct ⟨rfl, rfl, rfl⟩ ⟨rfl, rfl, rfl⟩ ⟨rfl, rfl, rfl⟩ ⟨rfl, rfl, rfl⟩ (by decide)
    (by decide) (by decide) (by decide) (by decide) (by decide) ⟨rfl, rfl⟩ ⟨rfl, rfl⟩ ⟨rfl, rfl⟩
    ⟨rfl, rfl⟩

def maxS (x y : Word) : Word := if y.sle x then x else y

/-- vsubc on the low halves, vge on the high ones and vmrg on the low ones. -/
structure DoubleMaximum (s₃ : Rsp) (w₂ w₃ : Word) (i : Fin 8) (x y : Word) : Prop where
  high : s₃.v w₂.sa i = hi16 (maxS x y)
  low : s₃.v w₃.sa i = lo16 (maxS x y)
  vcc : s₃.vccL i = y.sle x

theorem sle_halves (x y : Word) : y.sle x =
    ((hi16 y).slt (hi16 x) || (hi16 x == hi16 y && !(lo16 x).ult (lo16 y))) := by
  have hx := (lo16 x).isLt
  have hy := (lo16 y).isLt
  have heq : (hi16 x == hi16 y) = decide ((hi16 x).toInt = (hi16 y).toInt) := by
    rw [beq_eq_decide]
    exact decide_eq_decide.mpr BitVec.toInt_inj.symm
  rw [heq, BitVec.sle_eq_decide, BitVec.slt_eq_decide, BitVec.ult_eq_decide, toInt_halves x,
    toInt_halves y, ← decide_not, ← Bool.decide_and, ← Bool.decide_or]
  apply decide_eq_decide.mpr
  omega

/-- The two flags of vsubc together say no more than the borrow. -/
theorem vco_eq (a b : BitVec 16) :
    ((a.signExtend 32 - b.signExtend 32 : Word) != 0 &&
      (a.signExtend 32 - b.signExtend 32 : Word).slt 0) = a.slt b := by
  by_cases hd : (a.signExtend 32 - b.signExtend 32 : Word) = 0
  · rw [← borrow_eq, hd]
    decide
  · rw [bne_iff_ne.mpr hd, Bool.true_and, borrow_eq]

/-- The three instructions of a double-precision maximum: right unless the high halves are equal
and the low ones differ in the top bit, and then never. -/
theorem doubleMaximum {w₁ w₂ w₃ : Word} (h₁ : IsVec w₁ 0x15) (h₂ : IsVec w₂ 0x23)
    (h₃ : IsVec w₃ 0x27) (h₁₂ : Spares w₁ w₂) (h₁₃ : Spares w₁ w₃) (h₂₃ : Spares w₂ w₃)
    (hd : w₃.sa ≠ w₂.sa) {s : Rsp} {i : Fin 8} {x y : Word}
    (hl : s.Feeds w₁ i (lo16 x) (lo16 y)) (hh : s.Feeds w₂ i (hi16 x) (hi16 y))
    (hm : s.Feeds w₃ i (lo16 x) (lo16 y)) :
    ∃ s₁ s₂ s₃, s.straight w₁ = some s₁ ∧ s₁.straight w₂ = some s₂ ∧ s₂.straight w₃ = some s₃ ∧
      (DoubleMaximum s₃ w₂ w₃ i x y ↔ (hi16 x = hi16 y → x.getLsbD 15 = y.getLsbD 15)) := by
  obtain ⟨s₁, he₁, -, hl₁, hv₁⟩ := straight_lane h₁ rfl hl
  obtain ⟨s₂, he₂, hr₂, hl₂, hv₂⟩ := straight_lane h₂ rfl (hh.after h₁₂ hv₁)
  obtain ⟨s₃, he₃, hr₃, hl₃, hv₃⟩ := straight_lane h₃ rfl ((hm.after h₁₃ hv₁).after h₂₃ hv₂)
  -- what vge decides, with the flags vsubc left
  have hvco : ((s₁.lanes i).vcoH && (s₁.lanes i).vcoL) = (lo16 x).slt (lo16 y) := by
    rw [hl₁]
    exact vco_eq _ _
  obtain ⟨ge, hge⟩ : ∃ ge, ge = ((hi16 y).slt (hi16 x) ||
    (hi16 x == hi16 y && !(lo16 x).slt (lo16 y))) := ⟨_, rfl⟩
  rw [← hvco] at hge
  have hhigh : s₃.v w₂.sa i = if ge then hi16 x else hi16 y := by
    rw [hv₃ _ hd.symm, hr₂, hge]
    rfl
  have hcc : (s₂.lanes i).vccL = ge := by
    rw [hl₂, hge]
  have hlow : s₃.v w₃.sa i = if ge then lo16 x else lo16 y := by
    rw [hr₃, ← hcc]
    rfl
  have hcc₃ : s₃.vccL i = ge := (congrArg Lane.vccL hl₃).trans hcc
  rw [hvco] at hge
  refine ⟨s₁, s₂, s₃, he₁, he₂, he₃, fun h heq => ?_, fun h => ?_⟩
  · have hsle : ge = y.sle x := hcc₃.symm.trans h.vcc
    rw [hge, sle_halves, heq, beq_self_eq_true, Bool.true_and, Bool.true_and] at hsle
    apply (borrow_iff x y).mp
    have hirrefl : (hi16 y).slt (hi16 y) = false := by
      rw [BitVec.slt_eq_decide]
      exact decide_eq_false (lt_irrefl _)
    rw [hirrefl, Bool.false_or, Bool.false_or] at hsle
    exact Bool.not_inj hsle
  · have hsle : ge = y.sle x := by
      rw [hge, sle_halves]
      by_cases heq : hi16 x = hi16 y
      · rw [(borrow_iff x y).mpr (h heq)]
      · rw [beq_false_of_ne heq, Bool.false_and, Bool.false_and]
    refine ⟨?_, ?_, by rw [hcc₃, hsle]⟩
    · rw [hhigh, hsle, maxS]
      split_ifs <;> rfl
    · rw [hlow, hsle, maxS]
      split_ifs <;> rfl

/-- vsubc into `$v5`, vge into `$v6` and vmrg into `$v7`, on 0x10005 and 0x10007. -/
theorem doubleMaximum_low :
    ∃ s₁ s₂ s₃, (withHalves 0x10005 0x10007).straight 0x4a020955 = some s₁ ∧
      s₁.straight 0x4a0419a3 = some s₂ ∧ s₂.straight 0x4a0209e7 = some s₃ ∧
      (DoubleMaximum s₃ 0x4a0419a3 0x4a0209e7 0 0x10005 0x10007 ↔
        (hi16 0x10005 = hi16 0x10007 → (0x10005 : Word).getLsbD 15 = (0x10007 : Word).getLsbD 15)) :=
  doubleMaximum ⟨rfl, rfl, rfl⟩ ⟨rfl, rfl, rfl⟩ ⟨rfl, rfl, rfl⟩ (by decide) (by decide) (by decide)
    (by decide) ⟨rfl, rfl⟩ ⟨rfl, rfl⟩ ⟨rfl, rfl⟩

end RspBt.Rsp
