import RspBt.R4300.Discover
import RspBt.R4300.Interp

namespace RspBt.R4300

open Lib

/-- `todo`, in order: each entry once, and only what was discovered. -/
def declare (funcs : Word → Option Func) (entries : List Word) : List Word :=
  entries.foldl
    (fun todo e => if (funcs e).isNone ∨ e ∈ todo then todo else todo ++ [e]) []

/-- What `translate` leaves in `fns`, with what the code of the functions was made from. -/
structure R4300bt where
  emitter : Emitter
  fns : Word → Option Func

def translate (e : Env) (fp : FpUnit) (c : Cfg) (entries : List Word) : R4300bt where
  emitter := ⟨e, fp, fun x => x ∈ declare c.funcs entries⟩
  fns x := if x ∈ declare c.funcs entries then c.funcs x else none

theorem mem_declare_iff (funcs : Word → Option Func) (entries : List Word) (x : Word) :
    x ∈ declare funcs entries ↔ x ∈ entries ∧ (funcs x).isSome := by
  suffices hall : ∀ todo : List Word, x ∈ entries.foldl
      (fun todo e => if (funcs e).isNone ∨ e ∈ todo then todo else todo ++ [e]) todo ↔
        x ∈ todo ∨ x ∈ entries ∧ (funcs x).isSome by
    rw [declare, hall]
    simp
  induction entries with
  | nil => simp
  | cons e entries ih =>
    intro todo
    rw [List.foldl_cons, ih, List.mem_cons]
    by_cases hskip : (funcs e).isNone ∨ e ∈ todo
    · rw [if_pos hskip]
      constructor
      · rintro (h | ⟨h, hs⟩)
        · exact .inl h
        · exact .inr ⟨.inr h, hs⟩
      · rintro (h | ⟨rfl | h, hs⟩)
        · exact .inl h
        · rcases hskip with hno | hmem
          · rw [Option.isNone_iff_eq_none.mp hno] at hs
            cases hs
          · exact .inl hmem
        · exact .inr ⟨h, hs⟩
    · obtain ⟨hsome, -⟩ := not_or.mp hskip
      rw [if_neg hskip, List.mem_append, List.mem_singleton]
      constructor
      · rintro ((h | rfl) | ⟨h, hs⟩)
        · exact .inl h
        · exact .inr ⟨.inl rfl,
            Option.isSome_iff_ne_none.mpr fun h => hsome (Option.isNone_iff_eq_none.mpr h)⟩
        · exact .inr ⟨.inr h, hs⟩
      · rintro (h | ⟨rfl | h, hs⟩)
        · exact .inl (.inl h)
        · exact .inl (.inr rfl)
        · exact .inr ⟨h, hs⟩

namespace R4300bt

variable (p : R4300bt) (g : Guest)

/-- `have` -/
def have_ (entry : Word) : Bool := (p.fns entry).isSome

/-- Calls out of a translated function: into another, as `f` says, or into the interpreter. -/
def calls (f : Word → Mach → Mach → Word → Prop) : Calls where
  translated := f
  interp target link s s' := ∃ pc n, r4300btCall g ⟨s, 0⟩ target link = some (⟨s', pc⟩, n)

/-- The function at `entry` takes `s` to `s'` and returns `r`, with at most `k` translated
functions active at a time. -/
def RunsAt : ℕ → Word → Mach → Mach → Word → Prop
  | 0, _, _, _, _ => False
  | k + 1, entry, s, s', r => ∃ gf, p.fns entry = some gf ∧
      Relation.ReflTransGen (Step p.emitter gf (calls g (RunsAt k))) (gf.start entry s)
        (.returned s' r)

def Runs (entry : Word) (s s' : Mach) (r : Word) : Prop := ∃ k, p.RunsAt g k entry s s' r

variable {p g} {f f' : Word → Mach → Mach → Word → Prop} {gf : Func}

theorem does_mono (hf : ∀ e s s' r, f e s s' r → f' e s s' r) {direct : Option Word}
    {target link : Word} {s s' : Mach} (h : (calls g f).Does direct target link s s') :
    (calls g f').Does direct target link s s' := by
  cases direct with
  | none => exact h
  | some entry =>
    obtain ⟨s1, r, hr, hs⟩ := h
    exact ⟨s1, r, hf _ _ _ _ hr, hs⟩

theorem step_mono (hf : ∀ e s s' r, f e s s' r → f' e s s' r) {t : Emitter} {x y : Config}
    (h : Step t gf (calls g f) x y) : Step t gf (calls g f') x y := by
  cases h with
  | word h => exact .word h
  | branch h => exact .branch h
  | leave h => exact .leave h
  | call h hc => exact .call h (does_mono hf hc)
  | tailCall h hc => exact .tailCall h (does_mono hf hc)
  | exit => exact .exit

theorem runsAt_succ {k : ℕ} {entry r : Word} {s s' : Mach} (h : p.RunsAt g k entry s s' r) :
    p.RunsAt g (k + 1) entry s s' r := by
  induction k generalizing entry s s' r with
  | zero => exact h.elim
  | succ k ih =>
    obtain ⟨gf, hgf, hrun⟩ := h
    exact ⟨gf, hgf, hrun.lift id fun _ _ => step_mono fun _ _ _ _ => ih⟩

theorem runsAt_mono {k l : ℕ} (hkl : k ≤ l) {entry r : Word} {s s' : Mach}
    (h : p.RunsAt g k entry s s' r) : p.RunsAt g l entry s s' r := by
  induction hkl with
  | refl => exact h
  | step _ ih => exact runsAt_succ ih

theorem step_runsAt {t : Emitter} {x y : Config} (h : Step t gf (calls g (p.Runs g)) x y) :
    ∃ k, ∀ l, k ≤ l → Step t gf (calls g (p.RunsAt g l)) x y := by
  have hdoes {direct : Option Word} {target link : Word} {s s' : Mach}
      (hc : (calls g (p.Runs g)).Does direct target link s s') :
      ∃ k, ∀ l, k ≤ l → (calls g (p.RunsAt g l)).Does direct target link s s' := by
    cases direct with
    | none => exact ⟨0, fun _ _ => hc⟩
    | some entry =>
      obtain ⟨s1, r, ⟨k, hk⟩, hs⟩ := hc
      exact ⟨k, fun l hl => ⟨s1, r, runsAt_mono hl hk, hs⟩⟩
  cases h with
  | word h => exact ⟨0, fun _ _ => .word h⟩
  | branch h => exact ⟨0, fun _ _ => .branch h⟩
  | leave h => exact ⟨0, fun _ _ => .leave h⟩
  | call h hc =>
    obtain ⟨k, hk⟩ := hdoes hc
    exact ⟨k, fun l hl => .call h (hk l hl)⟩
  | tailCall h hc =>
    obtain ⟨k, hk⟩ := hdoes hc
    exact ⟨k, fun l hl => .tailCall h (hk l hl)⟩
  | exit => exact ⟨0, fun _ _ => .exit⟩

/-- A function runs as its own code does, with its calls run in the same way. -/
theorem runs_iff {entry r : Word} {s s' : Mach} : p.Runs g entry s s' r ↔
    ∃ gf, p.fns entry = some gf ∧
      Relation.ReflTransGen (Step p.emitter gf (calls g (p.Runs g))) (gf.start entry s)
        (.returned s' r) := by
  constructor
  · rintro ⟨k, hk⟩
    cases k with
    | zero => exact hk.elim
    | succ k =>
      obtain ⟨gf, hgf, hrun⟩ := hk
      exact ⟨gf, hgf, hrun.lift id fun _ _ => step_mono fun _ _ _ _ hr => ⟨k, hr⟩⟩
  · rintro ⟨gf, hgf, hrun⟩
    -- the run takes finitely many steps, so its calls have a depth
    have hdepth : ∀ x, Relation.ReflTransGen (Step p.emitter gf (calls g (p.Runs g)))
        (gf.start entry s) x → ∃ k, Relation.ReflTransGen
          (Step p.emitter gf (calls g (p.RunsAt g k))) (gf.start entry s) x := by
      intro x hx
      induction hx with
      | refl => exact ⟨0, .refl⟩
      | tail _ hstep ih =>
        obtain ⟨k, hk⟩ := ih
        obtain ⟨l, hl⟩ := step_runsAt hstep
        have hmono : ∀ a b, Step p.emitter gf (calls g (p.RunsAt g k)) a b →
            Step p.emitter gf (calls g (p.RunsAt g (max k l))) a b :=
          fun _ _ => step_mono fun _ _ _ _ hr => runsAt_mono (Nat.le_max_left k l) hr
        exact ⟨max k l, (hk.lift id hmono).tail (hl _ (Nat.le_max_right k l))⟩
    obtain ⟨k, hk⟩ := hdepth _ hrun
    exact ⟨k + 1, gf, hgf, hk⟩

end R4300bt

end RspBt.R4300
