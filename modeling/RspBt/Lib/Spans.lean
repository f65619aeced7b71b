import Mathlib.Data.List.Induction
import RspBt.Lib.Bytes

namespace Lib

structure Span where
  near : ℕ
  far : ℕ
  len : ℕ

namespace Span

def Covers (p : Span) (a : ℕ) : Prop := p.far ≤ a ∧ a < p.far + p.len

def Apart (p q : Span) : Prop := p.far + p.len ≤ q.far ∨ q.far + q.len ≤ p.far

end Span

variable {α : Type*} {near near' far far' : ℕ → α} {l : List Span} {p : Span}

def copyOut (near : ℕ → α) (l : List Span) (far : ℕ → α) : ℕ → α :=
  l.foldl (fun m p => memcpy m p.far near p.near p.len) far

def copyIn (far : ℕ → α) (l : List Span) (near : ℕ → α) : ℕ → α :=
  l.foldl (fun m p => memcpy m p.near far p.far p.len) near

theorem copyOut_concat : copyOut near (l ++ [p]) far =
    memcpy (copyOut near l far) p.far near p.near p.len := by
  rw [copyOut, List.foldl_append]
  rfl

theorem copyIn_concat : copyIn far (l ++ [p]) near =
    memcpy (copyIn far l near) p.near far p.far p.len := by
  rw [copyIn, List.foldl_append]
  rfl

/-- What no span covers is kept. -/
theorem copyOut_of_not_covers {a : ℕ} (h : ∀ p ∈ l, ¬ p.Covers a) : copyOut near l far a = far a := by
  induction l using List.reverseRecOn with
  | nil => rfl
  | append_singleton l q ih =>
    have hq : ¬ q.Covers a := h q (List.mem_append_right _ (List.mem_singleton_self q))
    unfold Span.Covers at hq
    rw [copyOut_concat, memcpy_out (by omega)]
    exact ih fun p hp => h p (List.mem_append_left _ hp)

/-- A later copy does not touch a span that is apart from it. -/
theorem copyOut_of_mem (hl : l.Pairwise Span.Apart) (hp : p ∈ l) {i : ℕ} (hi : i < p.len) :
    copyOut near l far (p.far + i) = near (p.near + i) := by
  induction l using List.reverseRecOn with
  | nil => cases hp
  | append_singleton l q ih =>
    obtain ⟨hl, -, hq⟩ := List.pairwise_append.mp hl
    rw [copyOut_concat]
    rcases List.mem_append.mp hp with hp | hp
    · have hapart := hq p hp q (List.mem_singleton_self q)
      unfold Span.Apart at hapart
      rw [memcpy_out (by omega)]
      exact ih hl hp
    · obtain rfl := List.mem_singleton.mp hp
      rw [memcpy_in (by omega) (by omega), Nat.add_sub_cancel_left]

theorem copyIn_of_eq (h : ∀ p ∈ l, ∀ i < p.len, far (p.far + i) = near (p.near + i)) :
    copyIn far l near = near := by
  induction l using List.reverseRecOn with
  | nil => rfl
  | append_singleton l q ih =>
    rw [copyIn_concat, ih fun p hp => h p (List.mem_append_left _ hp)]
    funext a
    unfold memcpy
    split_ifs with ha
    · rw [h q (List.mem_append_right _ (List.mem_singleton_self q)) _ (by omega)]
      congr 1
      omega
    · rfl

/-- Where near ranges overlap, the one copied last stands. -/
theorem copyIn_of_last {l₁ l₂ : List Span} {i : ℕ} (hi : i < p.len)
    (hlast : ∀ q ∈ l₂, p.near + i < q.near ∨ q.near + q.len ≤ p.near + i) :
    copyIn far (l₁ ++ p :: l₂) near (p.near + i) = far (p.far + i) := by
  induction l₂ using List.reverseRecOn with
  | nil => rw [copyIn_concat, memcpy_in (by omega) (by omega), Nat.add_sub_cancel_left]
  | append_singleton l₂ q ih =>
    have hq := hlast q (List.mem_append_right _ (List.mem_singleton_self q))
    rw [← List.cons_append, ← List.append_assoc, copyIn_concat, memcpy_out hq]
    exact ih fun q hq => hlast q (List.mem_append_left _ hq)

theorem copyIn_copyOut (hl : l.Pairwise Span.Apart) :
    copyIn (copyOut near l far) l near = near :=
  copyIn_of_eq fun _ hp _ hi => copyOut_of_mem hl hp hi

end Lib
