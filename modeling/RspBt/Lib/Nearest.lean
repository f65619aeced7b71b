import Mathlib.Data.Nat.Basic

namespace Lib

variable {α : Type*} {f : ℕ → Option α} {P : α → Prop} {i k : ℕ} {w : α}

def Clear (f : ℕ → Option α) (P : α → Prop) (k : ℕ) : Prop :=
  ∀ i, 0 < i → i < k → ∃ w, f i = some w ∧ ¬ P w

structure Nearest (f : ℕ → Option α) (P : α → Prop) (k : ℕ) (w : α) : Prop where
  pos : 0 < k
  clear : Clear f P k
  get : f k = some w
  kind : P w

theorem clear_one (f : ℕ → Option α) (P : α → Prop) : Clear f P 1 :=
  fun _ hi hlt => absurd hi (Nat.not_lt.mpr (Nat.lt_succ_iff.mp hlt))

theorem Clear.succ (h : Clear f P k) (hk : f k = some w) (hP : ¬ P w) : Clear f P (k + 1) := by
  intro i hi hlt
  rcases Nat.lt_succ_iff_lt_or_eq.mp hlt with hlt | rfl
  · exact h i hi hlt
  · exact ⟨w, hk, hP⟩

theorem Clear.mono (h : Clear f P k) (hik : i ≤ k) : Clear f P i :=
  fun j hj hlt => h j hj (Nat.lt_of_lt_of_le hlt hik)

theorem Clear.le (h : Clear f P k) (hi : Nearest f P i w) : k ≤ i := by
  by_contra hlt
  obtain ⟨v, hv, hnot⟩ := h i hi.pos (Nat.lt_of_not_le hlt)
  obtain rfl := Option.some.inj (hi.get.symm.trans hv)
  exact hnot hi.kind

theorem Nearest.unique (h : Nearest f P k w) {k' : ℕ} {w' : α} (h' : Nearest f P k' w') :
    k = k' ∧ w = w' := by
  obtain rfl : k = k' := Nat.le_antisymm (h.clear.le h') (h'.clear.le h)
  exact ⟨rfl, Option.some.inj (h.get.symm.trans h'.get)⟩

/-- Where there is one of the kind and nothing is missing before it, there is a nearest. -/
theorem exists_nearest (hk : 0 < k) (hf : f k = some w) (hP : P w)
    (hsome : ∀ i, 0 < i → i < k → ∃ v, f i = some v) : ∃ i v, i ≤ k ∧ Nearest f P i v := by
  induction k using Nat.strongRecOn generalizing w with
  | _ k ih =>
    by_cases h : ∃ i v, 0 < i ∧ i < k ∧ f i = some v ∧ P v
    · obtain ⟨i, v, hi, hik, hv, hPv⟩ := h
      obtain ⟨j, u, hj, hu⟩ := ih i hik hi hv hPv fun j hj hji => hsome j hj (Nat.lt_trans hji hik)
      exact ⟨j, u, Nat.le_trans hj (Nat.le_of_lt hik), hu⟩
    · refine ⟨k, w, Nat.le_refl k, hk, fun i hi hik => ?_, hf, hP⟩
      obtain ⟨v, hv⟩ := hsome i hi hik
      exact ⟨v, hv, fun hPv => h ⟨i, v, hi, hik, hv, hPv⟩⟩

end Lib
