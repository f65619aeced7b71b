import Mathlib.Data.Int.Bitwise
import Mathlib.Tactic.Linarith
import Mathlib.Tactic.Positivity
import Mathlib.Tactic.Ring

namespace Lib

def FitsS (w : ℕ) (z : ℤ) : Prop := -(2 ^ (w - 1) : ℤ) ≤ z ∧ z < 2 ^ (w - 1)

instance (w : ℕ) (z : ℤ) : Decidable (FitsS w z) := by
  unfold FitsS
  infer_instance

theorem fitsS_toInt {w : ℕ} (hw : 0 < w) (x : BitVec w) : FitsS w x.toInt := by
  have h := BitVec.two_mul_toInt_lt (x := x)
  have h' := BitVec.le_two_mul_toInt (x := x)
  have hp : (2 : ℤ) ^ w = 2 * 2 ^ (w - 1) := by
    rw [← pow_succ', Nat.sub_add_cancel hw]
  constructor <;> omega

theorem toInt_ofInt {w : ℕ} (hw : 0 < w) {z : ℤ} (h : FitsS w z) : (BitVec.ofInt w z).toInt = z := by
  have hp : (2 ^ w : ℤ) = 2 * 2 ^ (w - 1) := by
    rw [← pow_succ', Nat.sub_add_cancel hw]
  rw [BitVec.toInt_ofInt]
  obtain ⟨hl, hr⟩ := h
  apply Int.bmod_eq_of_le <;> push_cast <;> omega

def satS (w : ℕ) (z : ℤ) : BitVec w := BitVec.ofInt w (max (-2 ^ (w - 1)) (min (2 ^ (w - 1) - 1) z))

theorem ofInt_sub (w : ℕ) (a b : ℤ) :
    BitVec.ofInt w (a - b) = BitVec.ofInt w a - BitVec.ofInt w b := by
  rw [BitVec.sub_eq_add_neg, ← BitVec.ofInt_neg, ← BitVec.ofInt_add, sub_eq_add_neg]

theorem boolToInt (b : Bool) : b.toInt = (b.toNat : ℤ) := by cases b <;> rfl

inductive IntExp (ν : Type*)
  | var (x : ν)
  | const (z : ℤ)
  | neg (a : IntExp ν)
  | add (a b : IntExp ν)
  | sub (a b : IntExp ν)
  | mul (a b : IntExp ν)
  | shl (a : IntExp ν) (k : ℕ)

namespace IntExp

variable {ν : Type*}

def value (ρ : ν → ℤ) : IntExp ν → ℤ
  | var x => ρ x
  | const z => z
  | neg a => -a.value ρ
  | add a b => a.value ρ + b.value ρ
  | sub a b => a.value ρ - b.value ρ
  | mul a b => a.value ρ * b.value ρ
  | shl a k => a.value ρ * 2 ^ k

def word {w : ℕ} (ρ : ν → BitVec w) : IntExp ν → BitVec w
  | var x => ρ x
  | const z => BitVec.ofInt w z
  | neg a => -a.word ρ
  | add a b => a.word ρ + b.word ρ
  | sub a b => a.word ρ - b.word ρ
  | mul a b => a.word ρ * b.word ρ
  | shl a k => a.word ρ <<< k

def InRange (w : ℕ) (ρ : ν → ℤ) : IntExp ν → Prop
  | var x => FitsS w (ρ x)
  | const z => FitsS w z
  | neg a => a.InRange w ρ ∧ FitsS w (-a.value ρ)
  | add a b => a.InRange w ρ ∧ b.InRange w ρ ∧ FitsS w (a.value ρ + b.value ρ)
  | sub a b => a.InRange w ρ ∧ b.InRange w ρ ∧ FitsS w (a.value ρ - b.value ρ)
  | mul a b => a.InRange w ρ ∧ b.InRange w ρ ∧ FitsS w (a.value ρ * b.value ρ)
  | shl a k => a.InRange w ρ ∧ FitsS w (a.value ρ * 2 ^ k)

theorem word_eq_ofInt {w : ℕ} (ρ : ν → BitVec w) (e : IntExp ν) :
    e.word ρ = BitVec.ofInt w (e.value fun x => (ρ x).toInt) := by
  induction e with
  | var x => exact (BitVec.ofInt_toInt).symm
  | const z => rfl
  | neg a ih => rw [word, value, ih, BitVec.ofInt_neg]
  | add a b iha ihb => rw [word, value, iha, ihb, BitVec.ofInt_add]
  | sub a b iha ihb => rw [word, value, iha, ihb, ofInt_sub]
  | mul a b iha ihb => rw [word, value, iha, ihb, BitVec.ofInt_mul]
  | shl a k ih =>
    have hk : BitVec.twoPow w k = BitVec.ofInt w (2 ^ k) := by
      apply BitVec.eq_of_toNat_eq
      have h2 : ((2 : ℤ) ^ k) = ((2 ^ k : ℕ) : ℤ) := by push_cast; rfl
      rw [h2, BitVec.ofInt_natCast, BitVec.toNat_twoPow, BitVec.toNat_ofNat]
    rw [word, value, ih, BitVec.shiftLeft_eq_mul_twoPow, hk, ← BitVec.ofInt_mul]

theorem InRange.fits {w : ℕ} {ρ : ν → ℤ} {e : IntExp ν} (h : e.InRange w ρ) : FitsS w (e.value ρ) := by
  cases e with
  | var x => exact h
  | const z => exact h
  | neg a => exact h.2
  | add a b => exact h.2.2
  | sub a b => exact h.2.2
  | mul a b => exact h.2.2
  | shl a k => exact h.2

/-- Where nothing overflows the word holds the value. -/
theorem toInt_word {w : ℕ} (hw : 0 < w) (ρ : ν → BitVec w) {e : IntExp ν}
    (h : e.InRange w fun x => (ρ x).toInt) : (e.word ρ).toInt = e.value fun x => (ρ x).toInt := by
  rw [word_eq_ofInt, toInt_ofInt hw h.fits]

end IntExp

end Lib
