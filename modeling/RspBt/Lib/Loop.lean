import Mathlib.Data.Fintype.Powerset
import Mathlib.Data.List.Basic
import Mathlib.Logic.Relation

namespace Lib

variable {σ τ ρ : Type*}

/-- `none` is a turn that stops the whole program. -/
def loop (body : σ → Option (σ ⊕ ρ)) : ℕ → σ → Option ρ
  | 0, _ => none
  | n + 1, s =>
    match body s with
    | none => none
    | some (.inl s') => loop body n s'
    | some (.inr r) => some r

theorem loop_next {body : σ → Option (σ ⊕ ρ)} {s s' : σ} (h : body s = some (.inl s')) (n : ℕ) :
    loop body (n + 1) s = loop body n s' := by
  simp only [loop, h]

theorem loop_done {body : σ → Option (σ ⊕ ρ)} {s : σ} {r : ρ} (h : body s = some (.inr r)) (n : ℕ) :
    loop body (n + 1) s = some r := by
  simp only [loop, h]

theorem loop_cases {body : σ → Option (σ ⊕ ρ)} {n : ℕ} {s : σ} {r : ρ}
    (h : loop body n s = some r) :
    ∃ m, n = m + 1 ∧
      (body s = some (.inr r) ∨ ∃ s', body s = some (.inl s') ∧ loop body m s' = some r) := by
  cases n with
  | zero => simp [loop] at h
  | succ m =>
    refine ⟨m, rfl, ?_⟩
    cases hb : body s with
    | none => simp [loop, hb] at h
    | some x =>
      cases x with
      | inl s' => exact .inr ⟨s', rfl, by rwa [loop_next hb] at h⟩
      | inr r' =>
        rw [loop_done hb] at h
        exact .inl (by rw [Option.some.inj h])

/-- More fuel, and a body that answers at least as often, keep the result. -/
theorem loop_mono {body body' : σ → Option (σ ⊕ ρ)}
    (hb : ∀ s x, body s = some x → body' s = some x) {n m : ℕ} {s : σ} {r : ρ}
    (hnm : n ≤ m) (h : loop body n s = some r) : loop body' m s = some r := by
  induction n generalizing m s with
  | zero => simp [loop] at h
  | succ n ih =>
    obtain ⟨m, rfl⟩ : ∃ k, m = k + 1 := ⟨m - 1, by omega⟩
    obtain ⟨k, hk, hr | ⟨s', hs, hr⟩⟩ := loop_cases h
    · exact loop_done (hb _ _ hr) m
    · rw [loop_next (hb _ _ hs)]
      exact ih (by omega) (by rwa [show n = k by omega])

theorem loop_mono_fuel {body : σ → Option (σ ⊕ ρ)} {n m : ℕ} {s : σ} {r : ρ}
    (hnm : n ≤ m) (h : loop body n s = some r) : loop body m s = some r :=
  loop_mono (fun _ _ h => h) hnm h

/-- The invariant rule: what every turn keeps holds in the state the loop leaves from. -/
theorem loop_inv {body : σ → Option (σ ⊕ ρ)} (Inv : σ → Prop)
    (hstep : ∀ s s', Inv s → body s = some (.inl s') → Inv s')
    {n : ℕ} {s : σ} {r : ρ} (hs : Inv s) (h : loop body n s = some r) :
    ∃ s', Inv s' ∧ body s' = some (.inr r) := by
  induction n generalizing s with
  | zero => simp [loop] at h
  | succ n ih =>
    obtain ⟨k, hk, hr | ⟨s', hb, hr⟩⟩ := loop_cases h
    · exact ⟨s, hs, hr⟩
    · exact ih (hstep s s' hs hb) (by rwa [show n = k by omega])

/-- The total rule: under an invariant whose measure every turn lowers, the loop
returns within one turn more than the measure, with what its last turn gives. -/
theorem loop_total {body : σ → Option (σ ⊕ ρ)} (Inv : σ → Prop) (Post : ρ → Prop) (μ : σ → ℕ)
    (hstep : ∀ s, Inv s → (∃ r, body s = some (.inr r) ∧ Post r) ∨
      ∃ s', body s = some (.inl s') ∧ Inv s' ∧ μ s' < μ s)
    {s : σ} (hs : Inv s) {n : ℕ} (hn : μ s < n) : ∃ r, loop body n s = some r ∧ Post r := by
  induction n generalizing s with
  | zero => omega
  | succ n ih =>
    rcases hstep s hs with ⟨r, hr, hpost⟩ | ⟨s', hb, hs', hlt⟩
    · exact ⟨r, loop_done hr n, hpost⟩
    · rw [loop_next hb]
      exact ih hs' (by omega)

/-- The ranked rule: where the rank drops with every turn, it bounds the turns. -/
theorem loop_ranked {body : σ → Option (σ ⊕ ρ)} (R : ℕ → σ → Prop) (Post : ρ → Prop)
    (hstep : ∀ m s, R m s → (∃ r, body s = some (.inr r) ∧ Post r) ∨
      ∃ s' m', m' < m ∧ body s = some (.inl s') ∧ R m' s')
    {m : ℕ} {s : σ} (h : R m s) {n : ℕ} (hn : m < n) : ∃ r, loop body n s = some r ∧ Post r := by
  induction n generalizing m s with
  | zero => omega
  | succ n ih =>
    rcases hstep m s h with ⟨r, hr, hpost⟩ | ⟨s', m', hlt, hb, hs'⟩
    · exact ⟨r, loop_done hr n, hpost⟩
    · rw [loop_next hb]
      exact ih hs' (by omega)

/-- The well-founded rule: where every turn goes down, some number of turns is enough. -/
theorem loop_wellFounded {body : σ → Option (σ ⊕ ρ)} {R : σ → σ → Prop} (hR : WellFounded R)
    (Inv : σ → Prop) (Post : ρ → Prop)
    (hstep : ∀ s, Inv s → (∃ r, body s = some (.inr r) ∧ Post r) ∨
      ∃ s', body s = some (.inl s') ∧ Inv s' ∧ R s' s)
    {s : σ} (hs : Inv s) : ∃ n r, loop body n s = some r ∧ Post r := by
  induction s using hR.induction with
  | _ s ih =>
    rcases hstep s hs with ⟨r, hr, hpost⟩ | ⟨s', hb, hs', hlt⟩
    · exact ⟨1, r, loop_done hr 0, hpost⟩
    · obtain ⟨n, r, hloop, hpost⟩ := ih s' hlt hs'
      exact ⟨n + 1, r, (loop_next hb n).trans hloop, hpost⟩

/-- A search moves on: it has seen more, or has less to look at. -/
def Advances (seen seen' : τ → Prop) (left left' : ℕ) : Prop :=
  ((∀ a, seen a → seen' a) ∧ ∃ a, seen' a ∧ ¬ seen a) ∨ ((∀ a, seen' a ↔ seen a) ∧ left' < left)

theorem advances_wellFounded [Finite τ] (seen : σ → τ → Prop) (left : σ → ℕ) :
    WellFounded fun s' s => Advances (seen s) (seen s') (left s) (left s') := by
  have hlex : WellFounded (Prod.Lex (· > ·) (· < ·) : Set τ × ℕ → Set τ × ℕ → Prop) :=
    WellFounded.prod_lex wellFounded_gt wellFounded_lt
  refine Subrelation.wf ?_ (InvImage.wf (fun s => ({a | seen s a}, left s)) hlex)
  rintro s' s (⟨hsub, a, ha, hna⟩ | ⟨hsame, hlt⟩)
  · exact .left _ _ ⟨hsub, fun h => hna (h ha)⟩
  · have heq : {a | seen s' a} = {a | seen s a} := Set.ext hsame
    change Prod.Lex _ _ ({a | seen s' a}, left s') ({a | seen s a}, left s)
    rw [heq]
    exact .right _ hlt

/-- The search rule: among finitely many things to see, a search that moves on ends. -/
theorem loop_search [Finite τ] {body : σ → Option (σ ⊕ ρ)} (seen : σ → τ → Prop) (left : σ → ℕ)
    (Inv : σ → Prop) (Post : ρ → Prop)
    (hstep : ∀ s, Inv s → (∃ r, body s = some (.inr r) ∧ Post r) ∨
      ∃ s', body s = some (.inl s') ∧ Inv s' ∧ Advances (seen s) (seen s') (left s) (left s'))
    {s : σ} (hs : Inv s) : ∃ n r, loop body n s = some r ∧ Post r :=
  loop_wellFounded (advances_wellFounded seen left) Inv Post hstep hs

/-- The simulation rule: a loop whose turns another matches returns what the other's last turn
matches. -/
theorem loop_sim {σ' ρ' : Type*} {body : σ → Option (σ ⊕ ρ)} {body' : σ' → Option (σ' ⊕ ρ')}
    (R : σ → σ' → Prop) (Post : ρ → ρ' → Prop)
    (hnext : ∀ s t s', R s t → body s = some (.inl s') → ∃ t', body' t = some (.inl t') ∧ R s' t')
    (hdone : ∀ s t r, R s t → body s = some (.inr r) → ∃ r', body' t = some (.inr r') ∧ Post r r')
    {n : ℕ} {s : σ} {t : σ'} {r : ρ} (hR : R s t) (h : loop body n s = some r) :
    ∃ r', loop body' n t = some r' ∧ Post r r' := by
  induction n generalizing s t with
  | zero => simp [loop] at h
  | succ n ih =>
    obtain ⟨k, hk, hr | ⟨s', hs, hr⟩⟩ := loop_cases h
    · obtain ⟨r', hr', hpost⟩ := hdone s t r hR hr
      exact ⟨r', loop_done hr' n, hpost⟩
    · obtain ⟨t', ht, hR'⟩ := hnext s t s' hR hs
      rw [loop_next ht]
      exact ih hR' (by rwa [show n = k by omega])

/-- A loop whose turns another makes too, where what they lead to has `P`, or `Q` at the end. -/
theorem loop_back {body body' : σ → Option (σ ⊕ ρ)} (P : σ → Prop) (Q : ρ → Prop)
    (hturn : ∀ s x, body s = some x → Sum.elim P Q x → body' s = some x ∧ P s) {n : ℕ} {s : σ}
    {r : ρ} (h : loop body n s = some r) (hr : Q r) : loop body' n s = some r ∧ P s := by
  induction n generalizing s with
  | zero => simp [loop] at h
  | succ n ih =>
    obtain ⟨k, hk, hlast | ⟨s', hs', hrest⟩⟩ := loop_cases h
    · obtain ⟨hb, hs⟩ := hturn s _ hlast hr
      exact ⟨loop_done hb n, hs⟩
    · obtain ⟨hloop, hP⟩ := ih (by rwa [show n = k by omega])
      obtain ⟨hb, hs⟩ := hturn s _ hs' hP
      exact ⟨(loop_next hb n).trans hloop, hs⟩

/-- The states a loop goes through. -/
def Turns (body : σ → Option (σ ⊕ ρ)) : σ → σ → Prop :=
  Relation.ReflTransGen fun s s' => body s = some (.inl s')

theorem Turns.refl (body : σ → Option (σ ⊕ ρ)) (s : σ) : Turns body s s := Relation.ReflTransGen.refl

theorem Turns.head {body : σ → Option (σ ⊕ ρ)} {s t u : σ} (h : body s = some (.inl t))
    (ht : Turns body t u) : Turns body s u := Relation.ReflTransGen.head h ht

theorem Turns.cases_head {body : σ → Option (σ ⊕ ρ)} {s u : σ} (h : Turns body s u) :
    s = u ∨ ∃ t, body s = some (.inl t) ∧ Turns body t u := Relation.ReflTransGen.cases_head h

/-- What every turn keeps holds in every state of the loop. -/
theorem Turns.inv {body : σ → Option (σ ⊕ ρ)} (Inv : σ → Prop)
    (hstep : ∀ s s', Inv s → body s = some (.inl s') → Inv s') {s t : σ} (h : Turns body s t)
    (hs : Inv s) : Inv t := by
  induction h with
  | refl => exact hs
  | tail _ hb ih => exact hstep _ _ ih hb

/-- A loop that returns leaves from one of its states. -/
theorem loop_turns {body : σ → Option (σ ⊕ ρ)} {n : ℕ} {s : σ} {r : ρ}
    (h : loop body n s = some r) : ∃ t, Turns body s t ∧ body t = some (.inr r) :=
  loop_inv (Turns body s) (fun _ _ ht hb => ht.tail hb) (Turns.refl body s) h

/-- A loop that can leave from one of its states returns. -/
theorem Turns.returns {body : σ → Option (σ ⊕ ρ)} {s t : σ} {r : ρ} (h : Turns body s t)
    (ht : body t = some (.inr r)) : ∃ n, loop body n s = some r := by
  induction h using Relation.ReflTransGen.head_induction_on with
  | refl => exact ⟨1, loop_done ht 0⟩
  | head hb _ ih =>
    obtain ⟨n, hn⟩ := ih
    exact ⟨n + 1, (loop_next hb n).trans hn⟩

end Lib
