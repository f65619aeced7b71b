import RspBt.Lib.IntExp
import RspBt.Rsp.Cop2

namespace RspBt.Rsp

open Lib

theorem toInt_sext48 (x : BitVec 64) : (sext48 x).toInt = x.toInt.bmod (2 ^ 48) := by
  have h : sext48 x = (x.setWidth 48).signExtend 64 := by
    apply BitVec.eq_of_getLsbD_eq
    intro i hi
    simp only [sext48, BitVec.getLsbD_sshiftRight, BitVec.getLsbD_shiftLeft, BitVec.getLsbD_signExtend,
      BitVec.getLsbD_setWidth, BitVec.msb_eq_getLsbD_last]
    grind
  rw [h, BitVec.toInt_signExtend_of_le (by decide), BitVec.toInt_setWidth,
    BitVec.toInt_eq_toNat_bmod, Int.bmod_bmod_of_dvd (by decide)]

/-- A lane is the sign extension of its 48 bits when it lies in their range. -/
theorem sext48_eq_self_iff (x : BitVec 64) : sext48 x = x ↔ FitsS 48 x.toInt := by
  rw [← BitVec.toInt_inj, toInt_sext48]
  constructor
  · intro h
    rw [← h]
    have hl := Int.le_bmod (x := x.toInt) (m := 2 ^ 48) (by decide)
    have hr := Int.bmod_lt (x := x.toInt) (m := 2 ^ 48) (by decide)
    constructor <;> omega
  · rintro ⟨hl, hr⟩
    apply Int.bmod_eq_of_le <;> omega

/-- The low bits of a word are those of its value. -/
theorem setWidth_eq_ofInt {w m : ℕ} (h : m ≤ w) (x : BitVec w) :
    x.setWidth m = BitVec.ofInt m x.toInt := by
  rw [← BitVec.toInt_inj, BitVec.toInt_setWidth, BitVec.toInt_ofInt, BitVec.toInt_eq_toNat_bmod,
    Int.bmod_bmod_of_dvd (Nat.pow_dvd_pow 2 h)]

theorem clampS16_eq (x : BitVec 64) : clampS16 x = satS 16 x.toInt := by
  have hlo : (-32768 : BitVec 64).toInt = -32768 := by decide
  have hhi : (32767 : BitVec 64).toInt = 32767 := by decide
  rw [clampS16, setWidth_eq_ofInt (by decide), satS]
  congr 1
  simp only [BitVec.slt_eq_decide, decide_eq_true_eq, hlo, hhi]
  split_ifs with h h'
  · rw [hlo]
    omega
  · rw [hhi]
    omega
  · omega

/-- The middle slice clamped is the high half of the accumulator saturated to 32 bits. -/
theorem clampS16_mid (a : BitVec 64) :
    clampS16 (a.sshiftRight 16) = (satS 32 a.toInt).extractLsb' 16 16 := by
  have hz : (a.sshiftRight 16).toInt = a.toInt / 65536 := by
    rw [BitVec.toInt_sshiftRight, Int.shiftRight_eq_div_pow]
    rfl
  rw [clampS16_eq, satS, satS, hz]
  by_cases hlo : a.toInt < -0x80000000
  · rw [show max (-2 ^ (32 - 1)) (min (2 ^ (32 - 1) - 1) a.toInt) = -2 ^ 31 by omega,
      show max (-2 ^ (16 - 1)) (min (2 ^ (16 - 1) - 1) (a.toInt / 65536)) = -2 ^ 15 by omega]
    decide
  by_cases hhi : 0x7fffffff < a.toInt
  · rw [show max (-2 ^ (32 - 1)) (min (2 ^ (32 - 1) - 1) a.toInt) = 2 ^ 31 - 1 by omega,
      show max (-2 ^ (16 - 1)) (min (2 ^ (16 - 1) - 1) (a.toInt / 65536)) = 2 ^ 15 - 1 by omega]
    decide
  rw [show max (-2 ^ (32 - 1)) (min (2 ^ (32 - 1) - 1) a.toInt) = a.toInt by omega,
    show max (-2 ^ (16 - 1)) (min (2 ^ (16 - 1) - 1) (a.toInt / 65536)) = a.toInt / 65536 by omega,
    ← hz, ← setWidth_eq_ofInt (by decide), ← setWidth_eq_ofInt (by decide)]
  apply BitVec.eq_of_getLsbD_eq
  intro i hi
  simp only [BitVec.getLsbD_setWidth, BitVec.getLsbD_sshiftRight, BitVec.getLsbD_extractLsb']
  grind

theorem clampAccLow_eq (a : BitVec 64) : clampAccLow a = (satS 32 a.toInt).extractLsb' 0 16 := by
  have hlo : (-0x80000000 : BitVec 64).toInt = -0x80000000 := by decide
  have hhi : (0x7fffffff : BitVec 64).toInt = 0x7fffffff := by decide
  rw [clampAccLow, satS]
  simp only [BitVec.slt_eq_decide, decide_eq_true_eq, hlo, hhi]
  split_ifs with h h'
  · rw [show max (-2 ^ (32 - 1)) (min (2 ^ (32 - 1) - 1) a.toInt) = -2 ^ 31 by omega]
    decide
  · rw [show max (-2 ^ (32 - 1)) (min (2 ^ (32 - 1) - 1) a.toInt) = 2 ^ 31 - 1 by omega]
    decide
  · rw [show max (-2 ^ (32 - 1)) (min (2 ^ (32 - 1) - 1) a.toInt) = a.toInt by omega,
      ← setWidth_eq_ofInt (by decide)]
    apply BitVec.eq_of_getLsbD_eq
    intro i hi
    simp only [BitVec.getLsbD_setWidth, BitVec.getLsbD_extractLsb']
    grind

theorem low16 (x : BitVec 64) : x &&& 0xffff = (x.setWidth 16).setWidth 64 := by
  apply BitVec.eq_of_toNat_eq
  rw [BitVec.toNat_and, BitVec.toNat_setWidth, BitVec.toNat_setWidth]
  rw [show (0xffff : BitVec 64).toNat = 2 ^ 16 - 1 from rfl, Nat.and_two_pow_sub_one_eq_mod]
  omega

theorem trunc_low16 (x : BitVec 64) : (x &&& 0xffff).setWidth 16 = x.setWidth 16 := by
  apply BitVec.eq_of_toNat_eq
  rw [low16, BitVec.toNat_setWidth, BitVec.toNat_setWidth, BitVec.toNat_setWidth]
  omega

theorem toNat_sum64 (s t : BitVec 16) :
    (s.setWidth 64 + t.setWidth 64 : BitVec 64).toNat = s.toNat + t.toNat := by
  have hs := s.isLt
  have ht := t.isLt
  simp only [BitVec.toNat_add, BitVec.toNat_setWidth]
  omega

/-- The 64-bit variables of the lane loop. -/
inductive Operand
  | ss | tt | su | tu | acc
  /-- `vco_l[i] ? 1 : 0` -/
  | carry

def operand (s t : BitVec 16) (l : Lane) : Operand → BitVec 64
  | .ss => s.signExtend 64
  | .tt => t.signExtend 64
  | .su => s.setWidth 64
  | .tu => t.setWidth 64
  | .acc => l.acc
  | .carry => if l.vcoL then 1 else 0

/-- What a vector operation computes besides the lanes it selects: products, shifted
products, sums and differences. -/
def vecExps (fn : BitVec 6) : List (IntExp Operand) :=
  let ss := IntExp.var Operand.ss
  let tt := IntExp.var Operand.tt
  let su := IntExp.var Operand.su
  let tu := IntExp.var Operand.tu
  let acc := IntExp.var Operand.acc
  let carry := IntExp.var Operand.carry
  match fn with
  | 0x00 => [((ss.mul tt).mul (.const 2)).add (.const 0x8000)]           -- vmulf
  | 0x04 => [su.mul tu]                                                  -- vmudl
  | 0x05 => [ss.mul tu]                                                  -- vmudm
  | 0x06 => [su.mul tt]                                                  -- vmudn
  | 0x07 => [(ss.mul tt).shl 16]                                         -- vmudh
  | 0x08 => [acc.add ((ss.mul tt).mul (.const 2))]                       -- vmacf
  | 0x0d => [acc.add (ss.mul tu)]                                        -- vmadm
  | 0x0e => [acc.add (su.mul tt)]                                        -- vmadn
  | 0x0f => [acc.add ((ss.mul tt).shl 16)]                               -- vmadh
  | 0x10 => [(ss.add tt).add carry]                                      -- vadd
  | 0x11 => [(ss.sub tt).sub carry]                                      -- vsub
  | 0x13 => [tt.neg]                                                     -- vabs
  | 0x14 => [su.add tu]                                                  -- vaddc
  | 0x15 => [ss.sub tt]                                                  -- vsubc
  | 0x24 => [su.add tu, tu.neg, su.sub tu]                               -- vcl
  | _ => []

/-- The rest of a vector operation, from the words its arithmetic left. -/
def vecFinish (fn : BitVec 6) (s t : BitVec 16) (l : Lane) : List (BitVec 64) → Option Lane
  | [x] =>
    match fn with
    | 0x00 | 0x05 | 0x07 | 0x08 | 0x0d | 0x0f => some (l.accMid (sext48 x))
    | 0x04 => some (l.accLow (x.sshiftRight 16))
    | 0x06 | 0x0e => some (l.accLow (sext48 x))
    | 0x10 | 0x11 => some { l with
        acc := (l.acc &&& ~~~(0xffff : BitVec 64)) ||| (x &&& 0xffff)
        res := clampS16 x, vcoL := false, vcoH := false }
    | 0x13 => some (l.lowSlice (if s.slt 0 then x.setWidth 16 else if s = 0 then 0 else t))
    | 0x14 => some { l with
        res := (x &&& 0xffff).setWidth 16
        acc := (l.acc &&& ~~~(0xffff : BitVec 64)) ||| (x &&& 0xffff)
        vcoL := (x.sshiftRight 16 &&& 1) != 0, vcoH := false }
    | 0x15 => some { l.lowSlice (x.setWidth 16) with vcoL := x.slt 0, vcoH := x != 0 }
    | _ => none
  | [sum, neg, diff] => some (
    if l.vcoL then
      let vccL := if !l.vcoH then (if l.vce then sum.sle 0x10000 else sum == 0) else l.vccL
      { l.lowSlice (if vccL then neg.setWidth 16 else s) with
        vccL := vccL, vcoL := false, vcoH := false, vce := false }
    else
      let vccH := if !l.vcoH then (0 : BitVec 64).sle diff else l.vccH
      { l.lowSlice (if vccH then t else s) with
        vccH := vccH, vcoL := false, vcoH := false, vce := false })
  | _ => none

theorem neg_signExtend (t : BitVec 16) : (-(t.signExtend 64 : BitVec 64)).setWidth 16 = -t := by
  have h : (t.signExtend 64).setWidth 16 = t := by
    rw [setWidth_eq_ofInt (by decide), BitVec.toInt_signExtend_of_le (by decide), BitVec.ofInt_toInt]
  rw [BitVec.setWidth_neg_of_le (by decide), h]

/-- The unclamped difference of vsubc, 32 bits wide in the source. -/
theorem toInt_vsubc (s t : BitVec 16) :
    (s.signExtend 32 - t.signExtend 32 : Word).toInt = s.toInt - t.toInt ∧
      (s.signExtend 64 - t.signExtend 64 : BitVec 64).toInt = s.toInt - t.toInt := by
  have hs := fitsS_toInt (by decide) s
  have ht := fitsS_toInt (by decide) t
  obtain ⟨hs, hs'⟩ := hs
  obtain ⟨ht, ht'⟩ := ht
  rw [BitVec.toInt_sub, BitVec.toInt_sub, BitVec.toInt_signExtend_of_le (by decide),
    BitVec.toInt_signExtend_of_le (by decide), BitVec.toInt_signExtend_of_le (by decide),
    BitVec.toInt_signExtend_of_le (by decide)]
  constructor <;> (apply Int.bmod_eq_of_le <;> omega)

theorem vsubc_eq (s t : BitVec 16) (l : Lane) :
    vecFinish 0x15 s t l [s.signExtend 64 - t.signExtend 64] =
      some { l.lowSlice ((s.signExtend 32 - t.signExtend 32 : Word).setWidth 16) with
        vcoL := (s.signExtend 32 - t.signExtend 32 : Word).slt 0
        vcoH := (s.signExtend 32 - t.signExtend 32 : Word) != 0 } := by
  obtain ⟨h32, h64⟩ := toInt_vsubc s t
  generalize (s.signExtend 32 - t.signExtend 32 : Word) = d at *
  generalize (s.signExtend 64 - t.signExtend 64 : BitVec 64) = x at *
  have heq : x.toInt = d.toInt := by rw [h32, h64]
  have hlow : x.setWidth 16 = d.setWidth 16 := by
    rw [setWidth_eq_ofInt (by decide), setWidth_eq_ofInt (by decide), heq]
  have hneg : x.slt 0 = d.slt 0 := by
    rw [BitVec.slt_eq_decide, BitVec.slt_eq_decide, heq]
    rfl
  have hne : (x != 0) = (d != 0) := by
    rw [Bool.eq_iff_iff, bne_iff_ne, bne_iff_ne, ne_eq, ne_eq, ← BitVec.toInt_inj, heq,
      ← BitVec.toInt_inj]
    rfl
  rw [← hlow, ← hneg, ← hne]
  rfl

/-- A vector operation does its arithmetic on these words, or none at all. -/
theorem vecOp_finish {fn : BitVec 6} {op : BitVec 4 → BitVec 16 → BitVec 16 → Lane → Lane}
    (h : vecOp fn = some op) (e : BitVec 4) (s t : BitVec 16) (l : Lane) :
    vecExps fn = [] ∨
      vecFinish fn s t l ((vecExps fn).map fun x => x.word (operand s t l)) = some (op e s t l) := by
  unfold vecOp at h
  split at h
  case h_25 => cases h
  all_goals obtain rfl := Option.some.inj h
  -- the logical operations, vsar, vge and vmrg
  case h_13 | h_14 | h_16 | h_17 | h_18 | h_19 | h_20 | h_21 | h_24 => exact .inl rfl
  all_goals right
  case h_22 =>
    change some (l.lowSlice (if s.slt 0 then (-(t.signExtend 64 : BitVec 64)).setWidth 16
      else if s = 0 then 0 else t)) = _
    rw [neg_signExtend]
  case h_23 => exact vsubc_eq s t l
  all_goals rfl

@[simp] theorem toInt_ss (s t : BitVec 16) (l : Lane) : (operand s t l .ss).toInt = s.toInt :=
  BitVec.toInt_signExtend_of_le (by decide)

@[simp] theorem toInt_tt (s t : BitVec 16) (l : Lane) : (operand s t l .tt).toInt = t.toInt :=
  BitVec.toInt_signExtend_of_le (by decide)

theorem toInt_unsigned (x : BitVec 16) : (x.setWidth 64 : BitVec 64).toInt = x.toNat := by
  have h := x.isLt
  rw [BitVec.toInt_setWidth]
  apply Int.bmod_eq_of_le <;> omega

@[simp] theorem toInt_su (s t : BitVec 16) (l : Lane) : (operand s t l .su).toInt = s.toNat :=
  toInt_unsigned s

@[simp] theorem toInt_tu (s t : BitVec 16) (l : Lane) : (operand s t l .tu).toInt = t.toNat :=
  toInt_unsigned t

@[simp] theorem toInt_acc (s t : BitVec 16) (l : Lane) : (operand s t l .acc).toInt = l.acc.toInt := rfl

@[simp] theorem toInt_carry (s t : BitVec 16) (l : Lane) :
    (operand s t l .carry).toInt = l.vcoL.toInt := by
  rw [operand]
  cases l.vcoL <;> decide

theorem abs_mul_le {a b A B : ℤ} (ha : |a| ≤ A) (hb : |b| ≤ B) : |a * b| ≤ A * B := by
  rw [abs_mul]
  exact mul_le_mul ha hb (abs_nonneg b) ((abs_nonneg a).trans ha)

theorem abs_toInt_le (x : BitVec 16) : |x.toInt| ≤ 2 ^ 15 := by
  obtain ⟨hl, hr⟩ := fitsS_toInt (by decide) x
  rw [abs_le]
  constructor <;> omega

theorem abs_toNat_le (x : BitVec 16) : |(x.toNat : ℤ)| ≤ 2 ^ 16 := by
  have h := x.isLt
  rw [abs_le]
  constructor <;> omega

/-- Over an accumulator of 48 bits no product, shifted product, sum or difference of a vector
operation leaves the range of a signed 64-bit word. -/
theorem vecExps_inRange (fn : BitVec 6) (s t : BitVec 16) {l : Lane} (hacc : FitsS 48 l.acc.toInt) :
    ∀ x ∈ vecExps fn, x.InRange 64 fun o => (operand s t l o).toInt := by
  have hs := abs_le.mp (abs_toInt_le s)
  have ht := abs_le.mp (abs_toInt_le t)
  have hsu := abs_le.mp (abs_toNat_le s)
  have htu := abs_le.mp (abs_toNat_le t)
  have hss := abs_le.mp (abs_mul_le (abs_toInt_le s) (abs_toInt_le t))
  have hsm := abs_le.mp (abs_mul_le (abs_toInt_le s) (abs_toNat_le t))
  have hms := abs_le.mp (abs_mul_le (abs_toNat_le s) (abs_toInt_le t))
  have huu := abs_le.mp (abs_mul_le (abs_toNat_le s) (abs_toNat_le t))
  have hc : 0 ≤ l.vcoL.toInt ∧ l.vcoL.toInt ≤ 1 := by cases l.vcoL <;> decide
  obtain ⟨hal, har⟩ := hacc
  intro x hx
  unfold vecExps at hx
  split at hx
  all_goals
    simp only [List.mem_cons, List.not_mem_nil, or_false] at hx
  case h_15 =>
    rcases hx with rfl | rfl | rfl <;>
      (simp only [IntExp.InRange, IntExp.value, FitsS, toInt_su, toInt_tu]; omega)
  all_goals
    subst hx
    simp only [IntExp.InRange, IntExp.value, FitsS, toInt_ss, toInt_tt, toInt_su, toInt_tu,
      toInt_acc, toInt_carry]
    omega

/-- The words of the arithmetic of a lane, over an accumulator of 48 bits. -/
theorem toInt_exp (fn : BitVec 6) {x : IntExp Operand} (hx : x ∈ vecExps fn) {s t : BitVec 16} {l : Lane}
    (hl : FitsS 48 l.acc.toInt) :
    (x.word (operand s t l)).toInt = x.value fun o => (operand s t l o).toInt :=
  IntExp.toInt_word (by decide) _ (vecExps_inRange fn s t hl x hx)

theorem toInt_vmudl (s t : BitVec 16) :
    ((s.setWidth 64 * t.setWidth 64 : BitVec 64).sshiftRight 16).toInt = (s.toNat * t.toNat : ℤ) / 2 ^ 16 := by
  let l : Lane := ⟨0, false, false, false, false, false, 0⟩
  have h := toInt_exp 0x04 (List.mem_singleton_self _) (s := s) (t := t) (l := l)
    (show FitsS 48 (0 : BitVec 64).toInt by decide)
  simp only [IntExp.value, toInt_su, toInt_tu] at h
  change (s.setWidth 64 * t.setWidth 64 : BitVec 64).toInt = _ at h
  rw [BitVec.toInt_sshiftRight, h, Int.shiftRight_eq_div_pow]
  rfl

end RspBt.Rsp
