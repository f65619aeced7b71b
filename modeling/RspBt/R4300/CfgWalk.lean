import RspBt.R4300.CfgSpec

namespace RspBt.R4300

open Lib

@[simp] theorem mem_insert {a b : Word} {s : List Word} : b ∈ insert a s ↔ b = a ∨ b ∈ s :=
  mem_setInsert

theorem mem_foldl_insert {l : List Word} {s : List Word} {b : Word} :
    b ∈ l.foldl (fun s t => insert t s) s ↔ b ∈ l ∨ b ∈ s := by
  induction l generalizing s with
  | nil => simp only [List.foldl_nil, List.not_mem_nil, false_or]
  | cons a l ih =>
    rw [List.foldl_cons, ih, mem_insert, List.mem_cons]
    tauto

theorem Log.problem_ne_nil (l : Log) (pc : Word) (what : String) :
    (l.problem pc what).problems ≠ [] := List.append_ne_nil_of_right_ne_nil _ (List.cons_ne_nil _ _)

namespace Pass1

variable {e : Env} {n : ℕ} {entry : Word} {p q : Pass1}

def Stopped (e : Env) (p : Pass1) (s : Word) : Prop :=
  ∃ j, e.Run s j ∧ ((e.read (nth s j) = none ∧ nth s j ∈ p.ends ∧ p.log.problems ≠ []) ∨
    e.TrapAt (nth s j) ∨ nth s j ∈ p.terms)

structure Recorded (e : Env) (entry : Word) (p : Pass1) (pc : Word) : Prop where
  reached : e.Reached entry pc
  end_ : pc + 8 ∈ p.ends
  succs : ∃ c l, e.TermAt pc c ∧ e.Succs pc c l ∧ p.edges (pc + 8) = some l ∧
    ∀ t ∈ l, t ∈ p.leaders

/-- `cur` is the leader whose run is being followed. -/
structure Inv (e : Env) (entry : Word) (cur : Option Word) (p : Pass1) : Prop where
  root : entry ∈ p.leaders
  target : ∀ t ∈ p.leaders, e.Target entry t
  led : ∀ t ∈ p.leaders, t ∈ p.seen ∨ t ∈ p.work
  seen : ∀ t ∈ p.seen, t ∈ p.leaders
  work : ∀ t ∈ p.work, t ∈ p.leaders
  terms : ∀ pc ∈ p.terms, Recorded e entry p pc
  ends : ∀ x ∈ p.ends, (∃ pc ∈ p.terms, x = pc + 8) ∨ (e.Reached entry x ∧ e.read x = none)
  edges : ∀ x l, p.edges x = some l → ∃ pc ∈ p.terms, x = pc + 8
  runs : ∀ s ∈ p.seen, cur = some s ∨ p.Stopped e s

theorem inv_init (e : Env) (entry : Word) : Inv e entry none (init entry) where
  root := List.mem_singleton_self _
  target t ht := .inl (List.mem_singleton.mp ht)
  led _ ht := .inr ht
  seen _ ht := by cases ht
  work _ ht := ht
  terms _ ht := by cases ht
  ends _ ht := by cases ht
  edges _ _ ht := by cases ht
  runs _ ht := by cases ht

/-- Only the callees and the log may differ. -/
structure SameWalk (p q : Pass1) : Prop where
  leaders : q.leaders = p.leaders
  ends : q.ends = p.ends
  edges : q.edges = p.edges
  work : q.work = p.work
  seen : q.seen = p.seen
  terms : q.terms = p.terms
  problems : p.log.problems ≠ [] → q.log.problems ≠ []

theorem mem_problem (lg : Log) (pc : Word) (what : String) {x : Word × String}
    (h : x ∈ lg.problems) : x ∈ (lg.problem pc what).problems := List.mem_append_left _ h

theorem mem_jrLog {lg : Log} {pc : Word} {ok : Bool} {tgts : List Word} {x : Word × String}
    (h : x ∈ lg.problems) : x ∈ (jrLog lg e pc ok tgts).problems := by
  have hfold (ts : List Word) (lg : Log) (h : x ∈ lg.problems) :
      x ∈ (ts.foldl (fun l t => if t ∈ tgts then l
        else l.problem pc "observed jr target missing from its table") lg).problems := by
    induction ts generalizing lg with
    | nil => exact h
    | cons t ts ih =>
      rw [List.foldl_cons]
      apply ih
      split_ifs
      · exact h
      · exact mem_problem _ _ _ h
  unfold jrLog
  split_ifs
  · exact hfold _ _ h
  · exact h
  · exact mem_problem _ _ _ h

theorem jrLog_problems (l : Log) (e : Env) (pc : Word) (ok : Bool) (tgts : List Word)
    (h : l.problems ≠ []) : (jrLog l e pc ok tgts).problems ≠ [] := by
  obtain ⟨x, hx⟩ := List.exists_mem_of_ne_nil _ h
  exact List.ne_nil_of_mem (mem_jrLog hx)

theorem terminator_spec {pc : Word} {c : Ctl} {l : List Word}
    (h : p.terminator e n pc c = some (q, l)) (hf : c.k ≠ .fall) (ht : c.k ≠ .trap) :
    SameWalk p q ∧ e.Succs pc c l := by
  obtain ⟨k, target, reg⟩ := c
  cases k
  case fall => exact absurd rfl hf
  case trap => exact absurd rfl ht
  case jalr =>
    simp only [terminator] at h
    cases hh : e.hints pc with
    | none =>
      simp only [hh] at h
      obtain ⟨rfl, rfl⟩ := Prod.mk.inj (Option.some.inj h)
      exact ⟨⟨rfl, rfl, rfl, rfl, rfl, rfl, fun _ => Log.problem_ne_nil _ _ _⟩, rfl⟩
    | some ts =>
      simp only [hh] at h
      obtain ⟨rfl, rfl⟩ := Prod.mk.inj (Option.some.inj h)
      exact ⟨⟨rfl, rfl, rfl, rfl, rfl, rfl, id⟩, rfl⟩
  case jr =>
    simp only [terminator] at h
    simp only [Env.Succs]
    split_ifs at h ⊢
    · obtain ⟨rfl, rfl⟩ := Prod.mk.inj (Option.some.inj h)
      exact ⟨⟨rfl, rfl, rfl, rfl, rfl, rfl, id⟩, rfl⟩
    · obtain ⟨⟨ok, tgts⟩, hj, hq⟩ := Option.map_eq_some_iff.mp h
      obtain ⟨rfl, rfl⟩ := Prod.mk.inj hq
      exact ⟨⟨rfl, rfl, rfl, rfl, rfl, rfl, jrLog_problems _ _ _ _ _⟩, n, ok, hj⟩
  all_goals
    obtain ⟨rfl, rfl⟩ := Prod.mk.inj (Option.some.inj h)
    exact ⟨⟨rfl, rfl, rfl, rfl, rfl, rfl, id⟩, rfl⟩

theorem Stopped.mono {s : Word} (h : p.Stopped e s) (hends : ∀ x ∈ p.ends, x ∈ q.ends)
    (hterms : ∀ x ∈ p.terms, x ∈ q.terms) (hp : p.log.problems ≠ [] → q.log.problems ≠ []) :
    q.Stopped e s := by
  obtain ⟨j, hr, hstop⟩ := h
  refine ⟨j, hr, ?_⟩
  rcases hstop with ⟨hu, he, hlog⟩ | ht | ht
  · exact .inl ⟨hu, hends _ he, hp hlog⟩
  · exact .inr (.inl ht)
  · exact .inr (.inr (hterms _ ht))

theorem Inv.stop {s : Word} (h : Inv e entry (some s) p) (hstop : p.Stopped e s) :
    Inv e entry none p :=
  ⟨h.root, h.target, h.led, h.seen, h.work, h.terms, h.ends, h.edges, fun s' hs' => by
    rcases h.runs s' hs' with heq | hst
    · obtain rfl := Option.some.inj heq
      exact .inr hstop
    · exact .inr hst⟩

theorem Inv.withLog {cur : Option Word} (h : Inv e entry cur p) {l : Log}
    (hl : p.log.problems ≠ [] → l.problems ≠ []) : Inv e entry cur { p with log := l } :=
  ⟨h.root, h.target, h.led, h.seen, h.work,
    fun pc hpc => ⟨(h.terms pc hpc).reached, (h.terms pc hpc).end_, (h.terms pc hpc).succs⟩,
    h.ends, h.edges,
    fun s hs => (h.runs s hs).imp id fun hst => hst.mono (fun _ hx => hx) (fun _ hx => hx) hl⟩

theorem Inv.unmapped {s : Word} (h : Inv e entry (some s) p) {j : ℕ} (hrun : e.Run s j)
    (hr : e.Reached entry (nth s j)) (hu : e.read (nth s j) = none) :
    Inv e entry none { p with
      log := p.log.problem (nth s j) "unmapped instruction"
      ends := insert (nth s j) p.ends } where
  root := h.root
  target := h.target
  led := h.led
  seen := h.seen
  work := h.work
  terms pc hpc := ⟨(h.terms pc hpc).reached, mem_insert.mpr (.inr (h.terms pc hpc).end_),
    (h.terms pc hpc).succs⟩
  ends x hx := by
    rcases mem_insert.mp hx with rfl | hx
    · exact .inr ⟨hr, hu⟩
    · exact h.ends x hx
  edges := h.edges
  runs s' hs' := by
    right
    rcases h.runs s' hs' with heq | hst
    · obtain rfl := Option.some.inj heq
      exact ⟨j, hrun, .inl ⟨hu, mem_insert.mpr (.inl rfl), Log.problem_ne_nil _ _ _⟩⟩
    · exact hst.mono (fun x hx => mem_insert.mpr (.inr hx)) (fun x hx => hx)
        fun _ => Log.problem_ne_nil _ _ _

structure Records (p : Pass1) (pc : Word) (l : List Word) (q : Pass1) : Prop where
  leaders : ∀ t, t ∈ q.leaders ↔ t ∈ l ∨ t ∈ p.leaders
  work : q.work = p.work ++ l
  seen : q.seen = p.seen
  terms : ∀ x, x ∈ q.terms ↔ x = pc ∨ x ∈ p.terms
  ends : ∀ x, x ∈ q.ends ↔ x = pc + 8 ∨ x ∈ p.ends
  edges : q.edges = Function.update p.edges (pc + 8) (some l)
  problems : p.log.problems ≠ [] → q.log.problems ≠ []

theorem records_follow {pc : Word} {l : List Word} {edges : Word → Option (List Word)}
    (hedges : edges = Function.update p.edges (pc + 8) (some l)) (hq : SameWalk
      { p with terms := insert pc p.terms, ends := insert (pc + 8) p.ends } q) :
    Records p pc l ({ q with edges := edges }.follow l) where
  leaders t := by
    rw [← hq.leaders]
    exact mem_foldl_insert
  work := by
    rw [← hq.work]
    rfl
  seen := hq.seen
  terms x := by
    change x ∈ q.terms ↔ _
    rw [hq.terms]
    exact mem_insert
  ends x := by
    change x ∈ q.ends ↔ _
    rw [hq.ends]
    exact mem_insert
  edges := hedges
  problems := hq.problems

/-- What was recorded stays: two transfers do not share the word after the slot. -/
theorem Recorded.records {pc x : Word} {l : List Word} (h : Recorded e entry p x)
    (hq : Records p pc l q) (hne : x ≠ pc) : Recorded e entry q x := by
  obtain ⟨c, l', hc, hl, hed, hsub⟩ := h.succs
  refine ⟨h.reached, (hq.ends _).mpr (.inr h.end_), c, l', hc, hl, ?_, ?_⟩
  · have h8 : x + 8 ≠ pc + 8 := fun h8 => hne ((BitVec.add_left_inj 8).mp h8)
    rw [hq.edges, Function.update_of_ne h8, hed]
  · exact fun t ht => (hq.leaders t).mpr (.inr (hsub t ht))

/-- A transfer makes its successors leaders. -/
theorem Inv.records {s : Word} (h : Inv e entry (some s) p) {j : ℕ} (hrun : e.Run s j)
    (hr : e.Reached entry (nth s j)) {c : Ctl} (hc : e.TermAt (nth s j) c) {l : List Word}
    (hl : e.Succs (nth s j) c l) (hq : Records p (nth s j) l q) : Inv e entry none q where
  root := (hq.leaders _).mpr (.inr h.root)
  target t ht := by
    rcases (hq.leaders t).mp ht with ht | ht
    · exact .inr ⟨_, c, l, hr, hc, hl, ht⟩
    · exact h.target t ht
  led t ht := by
    rw [hq.seen, hq.work, List.mem_append]
    rcases (hq.leaders t).mp ht with ht | ht
    · exact .inr (.inr ht)
    · exact (h.led t ht).imp id .inl
  seen t ht := by
    rw [hq.seen] at ht
    exact (hq.leaders t).mpr (.inr (h.seen t ht))
  work t ht := by
    rw [hq.work] at ht
    rcases List.mem_append.mp ht with ht | ht
    · exact (hq.leaders t).mpr (.inr (h.work t ht))
    · exact (hq.leaders t).mpr (.inl ht)
  terms x hx := by
    by_cases heq : x = nth s j
    · subst heq
      refine ⟨hr, (hq.ends _).mpr (.inl rfl), c, l, hc, hl, ?_, ?_⟩
      · rw [hq.edges, Function.update_self]
      · exact fun t ht => (hq.leaders t).mpr (.inl ht)
    · have hold := ((hq.terms x).mp hx).resolve_left heq
      exact (h.terms x hold).records hq heq
  ends x hx := by
    rcases (hq.ends x).mp hx with rfl | hx
    · exact .inl ⟨nth s j, (hq.terms _).mpr (.inl rfl), rfl⟩
    · rcases h.ends x hx with ⟨pc, hpc, rfl⟩ | hu
      · exact .inl ⟨pc, (hq.terms _).mpr (.inr hpc), rfl⟩
      · exact .inr hu
  edges x l' hx := by
    rw [hq.edges] at hx
    by_cases heq : x = nth s j + 8
    · exact ⟨_, (hq.terms _).mpr (.inl rfl), heq⟩
    · rw [Function.update_of_ne heq] at hx
      obtain ⟨pc, hpc, rfl⟩ := h.edges x l' hx
      exact ⟨pc, (hq.terms _).mpr (.inr hpc), rfl⟩
  runs s' hs' := by
    right
    rw [hq.seen] at hs'
    rcases h.runs s' hs' with heq | hst
    · -- the run being followed stops at this transfer
      obtain rfl := Option.some.inj heq
      exact ⟨j, hrun, .inr (.inr ((hq.terms _).mpr (.inl rfl)))⟩
    · have hends (x : Word) (hx : x ∈ p.ends) : x ∈ q.ends := (hq.ends x).mpr (.inr hx)
      have hterms (x : Word) (hx : x ∈ p.terms) : x ∈ q.terms := (hq.terms x).mpr (.inr hx)
      exact hst.mono hends hterms hq.problems

inductive Leaves (e : Env) (p : Pass1) (pc : Word) : Pass1 → Prop
  | unmapped (h : e.read pc = none) : Leaves e p pc { p with
      log := p.log.problem pc "unmapped instruction"
      ends := insert pc p.ends }
  | trap (h : e.TrapAt pc) : Leaves e p pc { p with log := { p.log with nTraps := p.log.nTraps + 1 } }
  | known (h : pc ∈ p.terms) : Leaves e p pc p
  | transfer {c : Ctl} {l : List Word} {q : Pass1} (hc : e.TermAt pc c) (hl : e.Succs pc c l)
      (hq : SameWalk { p with terms := insert pc p.terms, ends := insert (pc + 8) p.ends } q) :
      Leaves e p pc ({ q with edges := Function.update q.edges (pc + 8) (some l) }.follow l)

/-- A turn of a run goes on to the next word, or leaves. -/
theorem runBody_cases {pc : Word} {x : (Pass1 × Word) ⊕ Pass1} (h : runBody e n (p, pc) = some x) :
    (e.FallsAt pc ∧ x = .inl (p, pc + 4)) ∨ ∃ q, x = .inr q ∧ Leaves e p pc q := by
  simp only [runBody] at h
  cases hr : e.read pc with
  | none =>
    simp only [hr] at h
    exact .inr ⟨_, (Option.some.inj h).symm, .unmapped hr⟩
  | some insn =>
    simp only [hr] at h
    split_ifs at h with hf ht hm
    · exact .inl ⟨⟨insn, hr, hf⟩, (Option.some.inj h).symm⟩
    · exact .inr ⟨_, (Option.some.inj h).symm, .trap ⟨insn, hr, ht⟩⟩
    · exact .inr ⟨_, (Option.some.inj h).symm, .known hm⟩
    · obtain ⟨⟨q, l⟩, hterm, rfl⟩ := Option.map_eq_some_iff.mp h
      obtain ⟨hsame, hl⟩ := terminator_spec hterm hf ht
      exact .inr ⟨_, rfl, .transfer ⟨insn, hr, rfl, hf, ht⟩ hl hsame⟩

theorem Inv.leaves {s : Word} (h : Inv e entry (some s) p) {j : ℕ} (hrun : e.Run s j)
    (hr : e.Reached entry (nth s j)) (hq : Leaves e p (nth s j) q) : Inv e entry none q := by
  cases hq with
  | unmapped hu => exact h.unmapped hrun hr hu
  | trap ht => exact (h.stop ⟨j, hrun, .inr (.inl ht)⟩).withLog id
  | known hm => exact h.stop ⟨j, hrun, .inr (.inr hm)⟩
  | transfer hc hl hsame =>
    apply h.records hrun hr hc hl
    apply records_follow _ hsame
    rw [hsame.edges]

/-- A run of straight-line code ends with the run of its leader stopped. -/
theorem Inv.run {s : Word} (h : Inv e entry (some s) p) (hs : e.Reached entry s)
    (hloop : loop (runBody e n) n (p, s) = some q) : Inv e entry none q := by
  obtain ⟨⟨p', pc⟩, ⟨hinv, j, rfl, hrun⟩, hlast⟩ := loop_inv
    (fun st => Inv e entry (some s) st.1 ∧ ∃ j, st.2 = nth s j ∧ e.Run s j)
    (by
      rintro ⟨p, pc⟩ st' ⟨hinv, j, rfl, hrun⟩ hb
      rcases runBody_cases hb with ⟨hf, hst⟩ | ⟨q, hst, -⟩
      · obtain rfl := Sum.inl.inj hst
        exact ⟨hinv, j + 1, (nth_succ s j).symm, hrun.succ hf⟩
      · cases hst)
    ⟨h, 0, (nth_zero s).symm, fun i hi => absurd hi (Nat.not_lt_zero i)⟩ hloop
  rcases runBody_cases hlast with ⟨-, hst⟩ | ⟨q', hst, hq⟩
  · cases hst
  · obtain rfl := Sum.inr.inj hst
    exact hinv.leaves hrun (hrun.reached hs) hq

/-- One turn of the walk: an item that was seen is dropped, another's run is followed, and with
no item left the walk is done. -/
inductive WorkTurn (e : Env) (n : ℕ) (p : Pass1) : Pass1 ⊕ Pass1 → Prop
  | done (hw : p.work = []) : WorkTurn e n p (.inr p)
  | skip {pc : Word} {rest : List Word} (hw : p.work = pc :: rest) (hseen : pc ∈ p.seen) :
      WorkTurn e n p (.inl { p with work := rest })
  | run {pc : Word} {rest : List Word} {q : Pass1} (hw : p.work = pc :: rest)
      (hseen : pc ∉ p.seen)
      (hloop : loop (runBody e n) n ({ p with work := rest, seen := insert pc p.seen }, pc) =
        some q) :
      WorkTurn e n p (.inl q)

theorem workBody_cases {x : Pass1 ⊕ Pass1} (h : workBody e n p = some x) : WorkTurn e n p x := by
  unfold workBody at h
  cases hw : p.work with
  | nil =>
    simp only [hw] at h
    obtain rfl := Option.some.inj h
    exact .done hw
  | cons pc rest =>
    simp only [hw] at h
    split_ifs at h with hseen
    · obtain rfl := Option.some.inj h
      exact .skip hw hseen
    · obtain ⟨q, hloop, rfl⟩ := Option.map_eq_some_iff.mp h
      exact .run hw hseen hloop

theorem walk_done {x : Pass1} (h : workBody e n p = some (.inr x)) : x = p ∧ p.work = [] := by
  cases workBody_cases h with
  | done hw => exact ⟨rfl, hw⟩

/-- The first item is a leader, and so are the others. -/
theorem Inv.popped (h : Inv e entry none p) {pc : Word} {rest : List Word}
    (hw : p.work = pc :: rest) :
    pc ∈ p.leaders ∧ (∀ t ∈ rest, t ∈ p.leaders) ∧
      ∀ t ∈ p.leaders, t ∈ p.seen ∨ t = pc ∨ t ∈ rest := by
  refine ⟨h.work pc ?_, fun t ht => h.work t ?_, fun t ht => ?_⟩
  · rw [hw]
    exact List.mem_cons_self ..
  · rw [hw]
    exact List.mem_cons_of_mem _ ht
  · rw [← List.mem_cons, ← hw]
    exact h.led t ht

/-- One item of the work list. -/
theorem Inv.work_step (h : Inv e entry none p) (hb : workBody e n p = some (.inl q)) :
    Inv e entry none q := by
  cases workBody_cases hb with
  | @skip pc rest hw hseen =>
    obtain ⟨hpc, hrest, hled⟩ := h.popped hw
    refine ⟨h.root, h.target, fun t ht => ?_, h.seen, hrest, fun pc hpc => ?_, h.ends, h.edges,
      h.runs⟩
    · rcases hled t ht with hs | rfl | hr
      · exact .inl hs
      · exact .inl hseen
      · exact .inr hr
    · exact ⟨(h.terms pc hpc).reached, (h.terms pc hpc).end_, (h.terms pc hpc).succs⟩
  | @run pc rest _ hw hseen hloop =>
    obtain ⟨hpc, hrest, hled⟩ := h.popped hw
    refine Inv.run ?_ (h.target pc hpc).reached hloop
    refine ⟨h.root, h.target, fun t ht => ?_, fun t ht => ?_, hrest, fun pc hpc => ?_, h.ends,
      h.edges, fun s hs => ?_⟩
    · rcases hled t ht with hs | rfl | hr
      · exact .inl (mem_insert.mpr (.inr hs))
      · exact .inl (mem_insert.mpr (.inl rfl))
      · exact .inr hr
    · rcases mem_insert.mp ht with rfl | ht
      · exact hpc
      · exact h.seen t ht
    · exact ⟨(h.terms pc hpc).reached, (h.terms pc hpc).end_, (h.terms pc hpc).succs⟩
    · rcases mem_insert.mp hs with rfl | hs
      · exact .inl rfl
      · exact .inr ((h.runs s hs).resolve_left (by simp))

theorem walk_inv (h : walk e n entry = some p) : Inv e entry none p ∧ p.work = [] := by
  obtain ⟨q, hq, hlast⟩ := loop_inv (Inv e entry none) (fun _ _ hi hb => hi.work_step hb)
    (inv_init e entry) h
  obtain ⟨rfl, hw⟩ := walk_done hlast
  exact ⟨hq, hw⟩

/-- The run of a leader that was walked comes to an end, at an unmapped word, a trap or a transfer
the walk met. -/
theorem Inv.stops (h : Inv e entry none p) {s : Word} (hs : s ∈ p.seen) :
    ∃ j, e.Run s j ∧ ¬ e.FallsAt (nth s j) ∧
      ((e.read (nth s j) = none ∧ nth s j ∈ p.ends ∧ p.log.problems ≠ []) ∨
        e.TrapAt (nth s j) ∨ nth s j ∈ p.terms) := by
  obtain ⟨j, hrun, hstop⟩ := (h.runs s hs).resolve_left (by simp)
  refine ⟨j, hrun, ?_, hstop⟩
  rcases hstop with ⟨hu, -⟩ | htrap | hterm
  · exact Env.not_falls_of_unread hu
  · exact htrap.not_falls
  · obtain ⟨c, l, hc, -⟩ := (h.terms _ hterm).succs
    exact hc.not_falls

theorem Inv.stop_at (h : Inv e entry none p) {s : Word} (hs : s ∈ p.seen) {j : ℕ}
    (hrun : e.Run s j) (hnf : ¬ e.FallsAt (nth s j)) :
    (e.read (nth s j) = none ∧ nth s j ∈ p.ends ∧ p.log.problems ≠ []) ∨ e.TrapAt (nth s j) ∨
      nth s j ∈ p.terms := by
  obtain ⟨k, hrun', hnot, hstop⟩ := h.stops hs
  obtain rfl := hrun.stop_unique hrun' hnf hnot
  exact hstop

theorem Inv.term_at (h : Inv e entry none p) {s : Word} (hs : s ∈ p.seen) {j : ℕ}
    (hrun : e.Run s j) {c : Ctl} (hc : e.TermAt (nth s j) c) : nth s j ∈ p.terms := by
  rcases h.stop_at hs hrun hc.not_falls with ⟨hu, -⟩ | htrap | hterm
  · obtain ⟨insn, hread, -⟩ := hc
    rw [hu] at hread
    cases hread
  · exact absurd htrap hc.not_trap
  · exact hterm

theorem Inv.seen_of_leader (h : Inv e entry none p) (hw : p.work = []) {t : Word}
    (ht : t ∈ p.leaders) : t ∈ p.seen := by
  apply (h.led t ht).resolve_right
  rw [hw]
  exact List.not_mem_nil

/-- What is recorded for a transfer is its successors, whoever computes them. -/
theorem Recorded.succs_eq {pc : Word} (h : Recorded e entry p pc) {c : Ctl} (hc : e.TermAt pc c)
    {l : List Word} (hl : e.Succs pc c l) : p.edges (pc + 8) = some l ∧ ∀ t ∈ l, t ∈ p.leaders := by
  obtain ⟨c', l', hc', hl', hed, hsub⟩ := h.succs
  obtain rfl := hc.unique hc'
  obtain rfl := hl.unique hl'
  exact ⟨hed, hsub⟩

/-- What is reached lies on the run of a leader. -/
theorem Inv.reached (h : Inv e entry none p) (hw : p.work = []) {pc : Word}
    (hr : e.Reached entry pc) : ∃ s ∈ p.seen, ∃ j, e.Run s j ∧ pc = nth s j := by
  have hself (t : Word) (ht : t ∈ p.leaders) : ∃ s ∈ p.seen, ∃ j, e.Run s j ∧ t = nth s j :=
    ⟨t, h.seen_of_leader hw ht, 0, fun i hi => absurd hi (Nat.not_lt_zero i), (nth_zero t).symm⟩
  induction hr with
  | entry => exact hself _ h.root
  | fall _ hf ih =>
    obtain ⟨s, hs, j, hrun, rfl⟩ := ih
    exact ⟨s, hs, j + 1, hrun.succ hf, (nth_succ s j).symm⟩
  | succ _ hc hl ht ih =>
    obtain ⟨s, hs, j, hrun, rfl⟩ := ih
    -- the successors the walk recorded for the transfer are leaders
    exact hself _ (((h.terms _ (h.term_at hs hrun hc)).succs_eq hc hl).2 _ ht)

/-- What is reached and does not fall through stopped a run. -/
theorem Inv.stopped (h : Inv e entry none p) (hw : p.work = []) {pc : Word}
    (hr : e.Reached entry pc) (hnf : ¬ e.FallsAt pc) :
    (e.read pc = none ∧ pc ∈ p.ends ∧ p.log.problems ≠ []) ∨ e.TrapAt pc ∨ pc ∈ p.terms := by
  obtain ⟨s, hs, j, hrun, rfl⟩ := h.reached hw hr
  exact h.stop_at hs hrun hnf

theorem Inv.mem_terms (h : Inv e entry none p) (hw : p.work = []) {pc : Word} {c : Ctl}
    (hr : e.Reached entry pc) (hc : e.TermAt pc c) : pc ∈ p.terms := by
  obtain ⟨s, hs, j, hrun, rfl⟩ := h.reached hw hr
  exact h.term_at hs hrun hc

theorem Inv.resolved (h : Inv e entry none p) (hw : p.work = []) {pc : Word} {c : Ctl}
    (hr : e.Reached entry pc) (hc : e.TermAt pc c) : ∃ l, e.Succs pc c l := by
  obtain ⟨c', l, hc', hl, -⟩ := (h.terms _ (h.mem_terms hw hr hc)).succs
  obtain rfl := hc.unique hc'
  exact ⟨l, hl⟩

/-- The walk in terms of the control flow: leaders are targets, all walked; each transfer
reached has its edges; the ends are the words past the slots and the unmapped ones. -/
structure Done (e : Env) (entry : Word) (p : Pass1) : Prop where
  leaders : ∀ t, t ∈ p.leaders ↔ e.Target entry t
  seen : ∀ t, t ∈ p.seen ↔ e.Target entry t
  bounds : ∀ x, x ∈ p.leaders ++ p.ends ↔ e.Bound entry x
  edges : ∀ x l, p.edges x = some l ↔
    ∃ pc c, e.Reached entry pc ∧ e.TermAt pc c ∧ e.Succs pc c l ∧ x = pc + 8
  mapped : p.log.problems = [] → ∀ pc, e.Reached entry pc → e.read pc ≠ none

/-- The walk met an unmapped word, and said so. -/
theorem Inv.unread (h : Inv e entry none p) (hw : p.work = []) {x : Word} (hr : e.Reached entry x)
    (hu : e.read x = none) : x ∈ p.ends ∧ p.log.problems ≠ [] := by
  rcases h.stopped hw hr (Env.not_falls_of_unread hu) with ⟨-, he⟩ | ⟨insn, hread, -⟩ | hterm
  · exact he
  · rw [hu] at hread
    cases hread
  · obtain ⟨c, l, ⟨insn, hread, -⟩, -⟩ := (h.terms _ hterm).succs
    rw [hu] at hread
    cases hread

theorem Inv.mem_leaders (h : Inv e entry none p) (hw : p.work = []) {t : Word} :
    t ∈ p.leaders ↔ e.Target entry t := by
  constructor
  · exact h.target t
  · rintro (rfl | ⟨pc, c, l, hr, hc, hl, ht⟩)
    · exact h.root
    · exact ((h.terms _ (h.mem_terms hw hr hc)).succs_eq hc hl).2 t ht

theorem Inv.mem_bounds (h : Inv e entry none p) (hw : p.work = []) {x : Word} :
    x ∈ p.leaders ++ p.ends ↔ e.Bound entry x := by
  rw [List.mem_append, h.mem_leaders hw]
  constructor
  · rintro (ht | he)
    · exact .inl ht
    · rcases h.ends x he with ⟨pc, hpc, rfl⟩ | hu
      · obtain ⟨c, l, hc, -⟩ := (h.terms pc hpc).succs
        exact .inr (.inl ⟨pc, c, (h.terms pc hpc).reached, hc, rfl⟩)
      · exact .inr (.inr hu)
  · rintro (ht | ⟨pc, c, hr, hc, rfl⟩ | ⟨hr, hu⟩)
    · exact .inl ht
    · exact .inr (h.terms pc (h.mem_terms hw hr hc)).end_
    · exact .inr (h.unread hw hr hu).1

theorem Inv.edges_iff (h : Inv e entry none p) (hw : p.work = []) {x : Word} {l : List Word} :
    p.edges x = some l ↔
      ∃ pc c, e.Reached entry pc ∧ e.TermAt pc c ∧ e.Succs pc c l ∧ x = pc + 8 := by
  constructor
  · intro hx
    obtain ⟨pc, hpc, rfl⟩ := h.edges x l hx
    obtain ⟨c, l', hc, hl, hed, -⟩ := (h.terms pc hpc).succs
    obtain rfl := Option.some.inj (hx.symm.trans hed)
    exact ⟨pc, c, (h.terms pc hpc).reached, hc, hl, rfl⟩
  · rintro ⟨pc, c, hr, hc, hl, rfl⟩
    exact ((h.terms _ (h.mem_terms hw hr hc)).succs_eq hc hl).1

theorem Inv.done (h : Inv e entry none p) (hw : p.work = []) : Done e entry p where
  leaders t := h.mem_leaders hw
  seen t := by
    rw [← h.mem_leaders hw]
    exact ⟨h.seen t, h.seen_of_leader hw⟩
  bounds x := h.mem_bounds hw
  edges x l := h.edges_iff hw
  mapped hp pc hr hu := (h.unread hw hr hu).2 hp

end Pass1

end RspBt.R4300
