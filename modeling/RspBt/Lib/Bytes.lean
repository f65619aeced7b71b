import Mathlib.Data.List.Basic
import Mathlib.Data.List.Nodup
import Mathlib.Logic.Function.Basic

namespace Lib

variable {α : Type*}

/-- `memcpy(dst + d, src + s, n)`; the two arrays are different objects. -/
def memcpy (dst : ℕ → α) (d : ℕ) (src : ℕ → α) (s n : ℕ) : ℕ → α :=
  fun a => if d ≤ a ∧ a < d + n then src (s + (a - d)) else dst a

theorem memcpy_in {dst src : ℕ → α} {d s n a : ℕ} (h : d ≤ a) (h' : a < d + n) :
    memcpy dst d src s n a = src (s + (a - d)) := if_pos ⟨h, h'⟩

theorem memcpy_out {dst src : ℕ → α} {d s n a : ℕ} (h : a < d ∨ d + n ≤ a) :
    memcpy dst d src s n a = dst a := if_neg (by omega)

def writes (addr : ℕ → ℕ) (val : ℕ → α) (k : ℕ) (m : ℕ → α) : ℕ → α :=
  (List.range k).foldl (fun m i => Function.update m (addr i) (val i)) m

@[simp] theorem writes_zero (addr : ℕ → ℕ) (val : ℕ → α) (m : ℕ → α) :
    writes addr val 0 m = m := rfl

theorem writes_succ (addr : ℕ → ℕ) (val : ℕ → α) (k : ℕ) (m : ℕ → α) :
    writes addr val (k + 1) m = Function.update (writes addr val k m) (addr k) (val k) := by
  simp only [writes, List.range_succ, List.foldl_append, List.foldl_cons, List.foldl_nil]

/-- Only the indices the loop computes matter. -/
theorem writes_congr {addr addr' : ℕ → ℕ} {val : ℕ → α} {k : ℕ} {m : ℕ → α}
    (h : ∀ i < k, addr i = addr' i) : writes addr val k m = writes addr' val k m := by
  induction k with
  | zero => rfl
  | succ k ih =>
    rw [writes_succ, writes_succ, ih fun i hi => h i (by omega), h k (by omega)]

/-- An index the loop never stores to keeps its entry. -/
theorem writes_out {addr : ℕ → ℕ} {val : ℕ → α} {k : ℕ} {m : ℕ → α} {x : ℕ}
    (h : ∀ i < k, addr i ≠ x) : writes addr val k m x = m x := by
  induction k with
  | zero => rfl
  | succ k ih =>
    rw [writes_succ, Function.update_of_ne (h k (by omega)).symm]
    exact ih fun i hi => h i (by omega)

/-- Where the indices are distinct, each holds the entry stored to it. -/
theorem writes_in {addr : ℕ → ℕ} {val : ℕ → α} {k : ℕ} {m : ℕ → α}
    (hinj : ∀ i < k, ∀ j < k, addr i = addr j → i = j) {j : ℕ} (hj : j < k) :
    writes addr val k m (addr j) = val j := by
  induction k with
  | zero => omega
  | succ k ih =>
    rw [writes_succ]
    by_cases hjk : j = k
    · subst hjk
      simp
    · have hne : addr j ≠ addr k := fun h => hjk (hinj j hj k (by omega) h)
      rw [Function.update_of_ne hne]
      exact ih (fun i hi l hl h => hinj i (by omega) l (by omega) h) (by omega)

theorem writes_consecutive (p : ℕ) (val : ℕ → α) (k : ℕ) (m : ℕ → α) :
    writes (fun i => p + i) val k m = memcpy m p val 0 k := by
  funext a
  by_cases h : p ≤ a ∧ a < p + k
  · obtain ⟨j, rfl⟩ : ∃ j, a = p + j := ⟨a - p, by omega⟩
    rw [memcpy_in h.1 h.2, writes_in (by omega) (by omega)]
    simp
  · rw [memcpy_out (by omega), writes_out (by omega)]

end Lib
