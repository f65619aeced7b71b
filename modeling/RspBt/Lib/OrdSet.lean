import Mathlib.Data.Finset.Card
import Mathlib.Data.List.Sort

namespace Lib

variable {α : Type*} [DecidableEq α]

def setInsert (le : α → α → Bool) (x : α) (s : List α) : List α :=
  if x ∈ s then s else s.orderedInsert (fun a b => le a b) x

@[simp] theorem mem_setInsert {le : α → α → Bool} {x y : α} {s : List α} :
    y ∈ setInsert le x s ↔ y = x ∨ y ∈ s := by
  unfold setInsert
  split_ifs with h
  · constructor
    · exact Or.inr
    · rintro (rfl | hy)
      · exact h
      · exact hy
  · exact List.mem_orderedInsert _

theorem setInsert_of_mem {le : α → α → Bool} {x : α} {s : List α} (h : x ∈ s) :
    setInsert le x s = s := if_pos h

theorem length_setInsert {le : α → α → Bool} {x : α} {s : List α} (h : x ∉ s) :
    (setInsert le x s).length = s.length + 1 := by
  rw [setInsert, if_neg h, List.orderedInsert_length]

theorem nodup_setInsert {le : α → α → Bool} {x : α} {s : List α} (h : s.Nodup) :
    (setInsert le x s).Nodup := by
  unfold setInsert
  split_ifs with hx
  · exact h
  · exact (List.perm_orderedInsert _ x s).nodup_iff.mpr (List.nodup_cons.mpr ⟨hx, h⟩)

theorem length_le_of_subset {s : List α} (h : s.Nodup) {t : Finset α} (hs : ∀ x ∈ s, x ∈ t) :
    s.length ≤ t.card := by
  rw [← List.toFinset_card_of_nodup h]
  exact Finset.card_le_card fun x hx => hs x (List.mem_toFinset.mp hx)

end Lib
