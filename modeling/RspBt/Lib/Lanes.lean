import Mathlib.Data.Fintype.Basic
import Mathlib.Data.List.FinRange
import Mathlib.Logic.Function.Basic

namespace Lib

abbrev Lanes (n w : ℕ) := Fin n → BitVec w

abbrev Mask (n : ℕ) := Fin n → Bool

namespace Lanes

variable {n m w u : ℕ}

def splat (x : BitVec w) : Lanes n w := fun _ => x
def add (a b : Lanes n w) : Lanes n w := fun i => a i + b i
def sub (a b : Lanes n w) : Lanes n w := fun i => a i - b i
def mul (a b : Lanes n w) : Lanes n w := fun i => a i * b i
def neg (a : Lanes n w) : Lanes n w := fun i => -a i
def and (a b : Lanes n w) : Lanes n w := fun i => a i &&& b i
def or (a b : Lanes n w) : Lanes n w := fun i => a i ||| b i
def xor (a b : Lanes n w) : Lanes n w := fun i => a i ^^^ b i
def shl (a b : Lanes n w) : Lanes n w := fun i => a i <<< b i
def lshr (a b : Lanes n w) : Lanes n w := fun i => a i >>> b i
def ashr (a b : Lanes n w) : Lanes n w := fun i => (a i).sshiftRight (b i).toNat
def zext (u : ℕ) (a : Lanes n w) : Lanes n u := fun i => (a i).setWidth u
def sext (u : ℕ) (a : Lanes n w) : Lanes n u := fun i => (a i).signExtend u
def trunc (u : ℕ) (a : Lanes n w) : Lanes n u := fun i => (a i).setWidth u
def smax (a b : Lanes n w) : Lanes n w := fun i => if (a i).slt (b i) then b i else a i
def smin (a b : Lanes n w) : Lanes n w := fun i => if (b i).slt (a i) then b i else a i

def icmpEq (a b : Lanes n w) : Mask n := fun i => a i == b i
def icmpNe (a b : Lanes n w) : Mask n := fun i => a i != b i
def icmpSlt (a b : Lanes n w) : Mask n := fun i => (a i).slt (b i)
def icmpSgt (a b : Lanes n w) : Mask n := fun i => (b i).slt (a i)
def icmpUlt (a b : Lanes n w) : Mask n := fun i => (a i).ult (b i)
def icmpUle (a b : Lanes n w) : Mask n := fun i => (a i).ule (b i)
def icmpUge (a b : Lanes n w) : Mask n := fun i => (b i).ule (a i)

def select (c : Mask n) (a b : Lanes n w) : Lanes n w := fun i => if c i then a i else b i

def shuffle (a : Lanes n w) (mask : Fin m → Fin n) : Lanes m w := fun i => a (mask i)

end Lanes

namespace Mask

variable {n w : ℕ}

def not (a : Mask n) : Mask n := fun i => !a i
def and (a b : Mask n) : Mask n := fun i => a i && b i
def or (a b : Mask n) : Mask n := fun i => a i || b i
def select (c a b : Mask n) : Mask n := fun i => if c i then a i else b i
def zext (w : ℕ) (a : Mask n) : Lanes n w := fun i => if a i then 1 else 0

end Mask

/-- A loop that rewrites entry `i` of an array from entry `i` alone, over any list of
distinct indices, rewrites each of them once. -/
theorem foldl_lane_apply {ι α : Type*} [DecidableEq ι] (g : ι → α → α) (l : List ι)
    (hl : l.Nodup) (f : ι → α) (i : ι) :
    l.foldl (fun f i => Function.update f i (g i (f i))) f i =
      if i ∈ l then g i (f i) else f i := by
  induction l generalizing f with
  | nil => simp
  | cons j l ih =>
    have hj : j ∉ l := (List.nodup_cons.mp hl).1
    rw [List.foldl_cons, ih (List.nodup_cons.mp hl).2]
    by_cases hij : i = j
    · subst hij
      simp [hj]
    · simp [hij]

/-- The loop `for i < n` over all the lanes is the lane-parallel map. -/
theorem foldl_lanes_eq_map {n : ℕ} {α : Type*} (g : Fin n → α → α) (f : Fin n → α) :
    (List.finRange n).foldl (fun f i => Function.update f i (g i (f i))) f =
      fun i => g i (f i) := by
  funext i
  rw [foldl_lane_apply g _ (List.nodup_finRange n)]
  simp

/-- A loop `for i < n` whose every turn changes nothing. -/
theorem foldl_range_fixed {α : Type*} {f : α → ℕ → α} {a : α} {n : ℕ} (h : ∀ i < n, f a i = a) :
    (List.range n).foldl f a = a := by
  induction n with
  | zero => rfl
  | succ n ih =>
    rw [List.range_succ, List.foldl_append, ih fun i hi => h i (by omega)]
    exact h n (by omega)

end Lib
