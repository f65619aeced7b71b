import RspBt.R4300.CfgEdges
import RspBt.R4300.TableScan

namespace RspBt.R4300

open Lib

namespace Env

variable {e : Env} {pc : Word} {n : ℕ}

def JrAt (e : Env) (pc : Word) (c : Ctl) : Prop := e.TermAt pc c ∧ c.k = .jr ∧ c.reg ≠ 31

/-- The table of the jr is read as a whole, or its first word is not readable. -/
def WholeOrNothing (e : Env) (pc : Word) : Prop :=
  ∀ base count, e.Table pc base count →
    e.entry base 0 = none ∨ ∀ i < count.toNat, e.entry base i ≠ none

def isJr (e : Env) (pc : Word) : Bool :=
  match e.read pc with
  | some insn => (decode pc insn).k = .jr
  | none => false

/-- A jr that has no hints is given an empty set of them. -/
def hintsAlone (e : Env) : Env where
  read := e.read
  hints pc :=
    match e.hints pc with
    | some h => some h
    | none => if e.isJr pc then some [] else none

/-- A read that fails leaves nothing just where it fails at the first word. -/
theorem wholeOrNothing_iff :
    e.WholeOrNothing pc ↔ ∀ n l, e.jumpTable n pc = some (false, l) → l = [] := by
  constructor
  · intro h n l hl
    by_contra hne
    obtain ⟨base, count, htable, hx⟩ := jumpTable_spec hl fun heq => hne (Prod.mk.inj heq).2
    rcases h base count htable with hfirst | hall
    · have hnil := (tableEntries_nil_iff htable.count_pos 0).mpr hfirst
      rw [← hx] at hnil
      exact hne hnil
    · have hok := tableEntries_all_iff.mpr hall
      rw [← hx] at hok
      cases hok
  · intro h base count htable
    obtain ⟨n, hn⟩ := htable.read
    cases hok : (e.tableEntries base 0 count.toNat).1 with
    | true => exact .inr (tableEntries_all_iff.mp hok)
    | false =>
      left
      rw [← tableEntries_nil_iff htable.count_pos]
      exact h n _ (by rw [hn, ← hok])

theorem hintsAlone_hints (h : e.isJr pc = false) : e.hintsAlone.hints pc = e.hints pc := by
  unfold hintsAlone
  cases hh : e.hints pc with
  | some l => simp only [hh]
  | none => simp only [hh, h, Bool.false_eq_true, if_false]

theorem isJr_of_read {insn : Word} (h : e.read pc = some insn) (hk : (decode pc insn).k ≠ .jr) :
    e.isJr pc = false := by
  unfold isJr
  simp only [h, decide_eq_false hk]

theorem hintsAlone_read (e : Env) : e.hintsAlone.read = e.read := rfl

theorem tableEntries_hintsAlone (e : Env) (base : Word) (i k : ℕ) :
    e.hintsAlone.tableEntries base i k = e.tableEntries base i k := by
  induction k generalizing i with
  | zero => rfl
  | succ k ih => simp only [tableEntries, ih, hintsAlone_read]

/-- The table does not depend on the hints. -/
theorem jumpTable_hintsAlone (e : Env) (n : ℕ) (pc : Word) :
    e.hintsAlone.jumpTable n pc = e.jumpTable n pc := by
  have hbody : e.hintsAlone.tableBody n pc = e.tableBody n pc := rfl
  unfold jumpTable
  simp only [hbody, tableEntries_hintsAlone, hintsAlone_read]

/-- Where nothing is left, the targets of a jr are those of its table or its hints alone. -/
theorem jrTargets_hintsAlone (hjr : e.isJr pc = true)
    (hclean : e.hints pc = none → e.WholeOrNothing pc) {x : Bool × List Word}
    (h : e.jrTargets n pc = some x) : e.hintsAlone.jrTargets n pc = some x := by
  obtain ⟨⟨ok, tgts⟩, hx, rfl⟩ := Option.map_eq_some_iff.mp h
  rw [jrTargets, jumpTable_hintsAlone, hx, Option.map_some]
  cases ok with
  | true => rfl
  | false =>
    cases hh : e.hints pc with
    | some l => simp only [hintsAlone, hh]
    | none =>
      obtain rfl := wholeOrNothing_iff.mp (hclean hh) n tgts hx
      simp only [hintsAlone, hh, hjr, if_true, Option.getD_some, Option.getD_none]

end Env

namespace Pass1

variable {e : Env} {n : ℕ} {pc entry : Word} {p q : Pass1} {c : Ctl} {l : List Word}

def Clean (e : Env) (entry : Word) : Prop :=
  ∀ pc c, e.Reached entry pc → e.JrAt pc c → e.hints pc = none → e.WholeOrNothing pc

theorem terminator_hintsAlone (hclean : Clean e entry) (hr : e.Reached entry pc)
    (hc : e.TermAt pc c) (h : p.terminator e n pc c = some (q, l)) (lg : Log) :
    ∃ lg', { p with log := lg }.terminator e.hintsAlone n pc c =
      some ({ q with log := lg' }, l) := by
  obtain ⟨insn, hread, rfl, -⟩ := id hc
  unfold terminator at h ⊢
  cases hk : (decode pc insn).k
  case jalr =>
    have hhints := Env.hintsAlone_hints (Env.isJr_of_read hread (by simp [hk]))
    simp only [hk, hhints] at h ⊢
    cases hh : e.hints pc with
    | some ts =>
      simp only [hh] at h ⊢
      obtain ⟨rfl, rfl⟩ := Prod.mk.inj (Option.some.inj h)
      exact ⟨lg, rfl⟩
    | none =>
      simp only [hh] at h ⊢
      obtain ⟨rfl, rfl⟩ := Prod.mk.inj (Option.some.inj h)
      exact ⟨_, rfl⟩
  case jr =>
    simp only [hk] at h ⊢
    split_ifs at h ⊢ with hreg
    · obtain ⟨rfl, rfl⟩ := Prod.mk.inj (Option.some.inj h)
      exact ⟨lg, rfl⟩
    · obtain ⟨⟨ok, tgts⟩, hx, hq⟩ := Option.map_eq_some_iff.mp h
      obtain ⟨rfl, rfl⟩ := Prod.mk.inj hq
      have hjr : e.isJr pc = true := by
        unfold Env.isJr
        simp only [hread, hk, decide_true]
      have hx' := Env.jrTargets_hintsAlone hjr (hclean pc _ hr ⟨hc, hk, hreg⟩) hx
      rw [hx']
      exact ⟨_, rfl⟩
  all_goals
    simp only [hk] at h ⊢
    obtain ⟨rfl, rfl⟩ := Prod.mk.inj (Option.some.inj h)
    exact ⟨lg, rfl⟩

def SameGraph (p q : Pass1) : Prop := ∃ lg, q = { p with log := lg }

theorem runBody_hintsAlone (hclean : Clean e entry) (hr : e.Reached entry pc) {p' : Pass1}
    (hp : SameGraph p p') :
    (∀ st, runBody e n (p, pc) = some (.inl st) →
      st = (p, pc + 4) ∧ runBody e.hintsAlone n (p', pc) = some (.inl (p', pc + 4))) ∧
    ∀ q, runBody e n (p, pc) = some (.inr q) →
      ∃ q', runBody e.hintsAlone n (p', pc) = some (.inr q') ∧ SameGraph q q' := by
  obtain ⟨lg, rfl⟩ := hp
  simp only [runBody, Env.hintsAlone_read]
  cases hread : e.read pc with
  | none =>
    refine ⟨fun st h => (by cases h), fun q h => ?_⟩
    obtain rfl := Sum.inr.inj (Option.some.inj h)
    exact ⟨_, rfl, _, rfl⟩
  | some insn =>
    simp only
    split_ifs with hf ht hm
    · refine ⟨fun st h => ?_, fun q h => (by cases h)⟩
      exact ⟨(Sum.inl.inj (Option.some.inj h)).symm, rfl⟩
    · refine ⟨fun st h => (by cases h), fun q h => ?_⟩
      obtain rfl := Sum.inr.inj (Option.some.inj h)
      exact ⟨_, rfl, _, rfl⟩
    · refine ⟨fun st h => (by cases h), fun q h => ?_⟩
      obtain rfl := Sum.inr.inj (Option.some.inj h)
      exact ⟨_, rfl, _, rfl⟩
    · refine ⟨fun st h => ?_, fun q h => ?_⟩
      · obtain ⟨x, -, hx⟩ := Option.map_eq_some_iff.mp h
        cases hx
      · obtain ⟨⟨q', l⟩, hx, hq⟩ := Option.map_eq_some_iff.mp h
        obtain rfl := Sum.inr.inj hq
        obtain ⟨lg', hx'⟩ := terminator_hintsAlone hclean hr ⟨insn, hread, rfl, hf, ht⟩ hx lg
        refine ⟨_, Option.map_eq_some_iff.mpr ⟨_, hx', rfl⟩, lg', rfl⟩

theorem run_hintsAlone (hclean : Clean e entry) (hr : e.Reached entry pc) {p' : Pass1}
    (hp : SameGraph p p') (h : loop (runBody e n) n (p, pc) = some q) :
    ∃ q', loop (runBody e.hintsAlone n) n (p', pc) = some q' ∧ SameGraph q q' := by
  refine loop_sim (fun s t => s.2 = t.2 ∧ SameGraph s.1 t.1 ∧ e.Reached entry s.2) SameGraph
    ?_ ?_ ⟨rfl, hp, hr⟩ h
  · rintro ⟨p, pc⟩ ⟨p', pc'⟩ st ⟨rfl, hp, hr⟩ hst
    obtain ⟨rfl, hst'⟩ := (runBody_hintsAlone hclean hr hp).1 st hst
    rcases runBody_cases hst with ⟨hf, -⟩ | ⟨q, hq, -⟩
    · exact ⟨_, hst', rfl, hp, .fall hr hf⟩
    · cases hq
  · rintro ⟨p, pc⟩ ⟨p', pc'⟩ q ⟨rfl, hp, hr⟩ hst
    exact (runBody_hintsAlone hclean hr hp).2 q hst

/-- The walk goes the same way where no read of a table leaves anything. -/
theorem walk_hintsAlone (hclean : Clean e entry) (h : walk e n entry = some p) :
    ∃ p', walk e.hintsAlone n entry = some p' ∧ SameGraph p p' := by
  refine loop_sim (fun s t => SameGraph s t ∧ Inv e entry none s) SameGraph ?_ ?_
    ⟨⟨_, rfl⟩, inv_init e entry⟩ h
  · rintro p p' q ⟨⟨lg, rfl⟩, hinv⟩ hb
    have hnext := hinv.work_step hb
    cases workBody_cases hb with
    | skip hw hseen =>
      refine ⟨_, ?_, ⟨lg, rfl⟩, hnext⟩
      simp only [workBody, hw, if_pos hseen]
    | @run pc rest _ hw hseen hloop =>
      have hr : e.Reached entry pc := (hinv.target pc (hinv.popped hw).1).reached
      obtain ⟨q', hloop', hsame⟩ := run_hintsAlone hclean hr ⟨lg, rfl⟩ hloop
      refine ⟨q', ?_, hsame, hnext⟩
      simp only [workBody, hw, if_neg hseen]
      exact Option.map_eq_some_iff.mpr ⟨q', hloop', rfl⟩
  · rintro p p' q ⟨⟨lg, rfl⟩, -⟩ hb
    obtain ⟨rfl, hw⟩ := walk_done hb
    refine ⟨_, ?_, lg, rfl⟩
    simp only [workBody, hw]

end Pass1

structure Env.Unresolved (e : Env) (pc : Word) : Prop where
  jr : ∃ c, e.JrAt pc c
  failed : ∃ n l, e.jumpTable n pc = some (false, l)
  hints : e.hints pc = none

namespace Pass1

variable {e : Env} {n m : ℕ} {pc entry : Word} {p q : Pass1} {c : Ctl} {l : List Word}

/-- The walk said of every jr it met, and could not resolve, that it could not. -/
def Reported (e : Env) (p : Pass1) : Prop :=
  ∀ pc ∈ p.terms, e.Unresolved pc → (pc, "unresolved jr") ∈ p.log.problems

theorem terminator_log (hc : e.TermAt pc c) (h : p.terminator e n pc c = some (q, l)) :
    (∀ x ∈ p.log.problems, x ∈ q.log.problems) ∧
      (e.Unresolved pc → (pc, "unresolved jr") ∈ q.log.problems) := by
  have hother (hk : c.k ≠ .jr ∨ c.reg = 31) (hu : e.Unresolved pc) : False := by
    obtain ⟨c', hc', hk', hreg'⟩ := hu.jr
    obtain rfl := hc.unique hc'
    rcases hk with hk | hreg
    · exact hk hk'
    · exact hreg' hreg
  unfold terminator at h
  cases hk : c.k
  case jr =>
    simp only [hk] at h
    split_ifs at h with hreg
    · obtain ⟨rfl, -⟩ := Prod.mk.inj (Option.some.inj h)
      exact ⟨fun _ hx => hx, fun hu => (hother (.inr hreg) hu).elim⟩
    · obtain ⟨⟨ok, tgts⟩, hx, hq⟩ := Option.map_eq_some_iff.mp h
      obtain ⟨rfl, -⟩ := Prod.mk.inj hq
      refine ⟨fun _ hx => mem_jrLog hx, fun hu => ?_⟩
      obtain ⟨n', l', hl'⟩ := hu.failed
      obtain ⟨⟨ok', t'⟩, htable, hok⟩ := Option.map_eq_some_iff.mp hx
      obtain ⟨rfl, -⟩ := Prod.mk.inj (Env.jumpTable_unique htable hl')
      obtain ⟨rfl, -⟩ := Prod.mk.inj hok
      simp only [jrLog, hu.hints, Bool.false_eq_true, if_false, Option.isSome_none]
      exact List.mem_append_right _ (List.mem_singleton_self _)
  case jalr =>
    simp only [hk] at h
    have hno (hu : e.Unresolved pc) : (pc, "unresolved jr") ∈ q.log.problems :=
      (hother (.inl (by rw [hk]; decide)) hu).elim
    cases hh : e.hints pc with
    | some ts =>
      simp only [hh] at h
      obtain ⟨rfl, -⟩ := Prod.mk.inj (Option.some.inj h)
      exact ⟨fun _ hx => hx, hno⟩
    | none =>
      simp only [hh] at h
      obtain ⟨rfl, -⟩ := Prod.mk.inj (Option.some.inj h)
      exact ⟨fun _ hx => mem_problem _ _ _ hx, hno⟩
  all_goals
    simp only [hk] at h
    obtain ⟨rfl, -⟩ := Prod.mk.inj (Option.some.inj h)
    exact ⟨fun _ hx => hx, fun hu => (hother (.inl (by rw [hk]; decide)) hu).elim⟩

theorem Reported.runBody (hp : Reported e p) (h : runBody e n (p, pc) = some (.inr q)) :
    Reported e q := by
  unfold Pass1.runBody at h
  simp only at h
  cases hread : e.read pc with
  | none =>
    simp only [hread] at h
    obtain rfl := Sum.inr.inj (Option.some.inj h)
    exact fun x hx hu => mem_problem _ _ _ (hp x hx hu)
  | some insn =>
    simp only [hread] at h
    split_ifs at h with hf ht hm
    · cases h
    · obtain rfl := Sum.inr.inj (Option.some.inj h)
      exact hp
    · obtain rfl := Sum.inr.inj (Option.some.inj h)
      exact hp
    · obtain ⟨⟨q', l⟩, hx, hq⟩ := Option.map_eq_some_iff.mp h
      obtain rfl := Sum.inr.inj hq
      obtain ⟨hmono, hnew⟩ := terminator_log ⟨insn, hread, rfl, hf, ht⟩ hx
      obtain ⟨hsame, -⟩ := terminator_spec hx hf ht
      have hterms : q'.terms = insert pc p.terms := hsame.terms
      intro x hxt hu
      have hmem : x ∈ insert pc p.terms := by
        rw [← hterms]
        exact hxt
      rcases mem_insert.mp hmem with rfl | hold
      · exact hnew hu
      · exact hmono _ (hp x hold hu)

theorem Reported.run (hp : Reported e p) (h : loop (Pass1.runBody e n) m (p, pc) = some q) :
    Reported e q := by
  obtain ⟨⟨p', pc'⟩, hp', hlast⟩ := loop_inv (fun st => Reported e st.1)
    (by
      rintro ⟨p, pc⟩ st hp hst
      rcases runBody_cases hst with ⟨-, hnext⟩ | ⟨q, hq, -⟩
      · obtain rfl := Sum.inl.inj hnext
        exact hp
      · cases hq)
    hp h
  exact hp'.runBody hlast

/-- The walk reports every jr it cannot resolve. -/
theorem walk_reported (h : walk e n entry = some p) : Reported e p := by
  obtain ⟨q, hq, hlast⟩ := loop_inv (Reported e)
    (by
      intro p q hp hb
      cases workBody_cases hb with
      | skip => exact hp
      | @run pc rest _ _ _ hloop =>
        have hp' : Reported e { p with work := rest, seen := insert pc p.seen } := hp
        exact hp'.run hloop)
    (fun x hx => by cases hx) h
  obtain ⟨rfl, -⟩ := walk_done hlast
  exact hq

end Pass1

variable {e : Env} {n : ℕ} {entry s pc : Word} {p : Pass1} {fn fn' : Func} {log : Log}

/-- A block depends on the hints of a jalr only. -/
theorem mkBlock_hintsAlone {edges : Word → Option (List Word)} {k : ℕ} {stop : Stop}
    {B : Word → Prop} (hcut : e.Cut B s k stop) :
    mkBlock e.hintsAlone edges s (stop.past (nth s k)) stop =
        mkBlock e edges s (stop.past (nth s k)) stop ∧
      stop.isUnresolvedCall e.hintsAlone (stop.past (nth s k)) =
        stop.isUnresolvedCall e (stop.past (nth s k)) := by
  cases stop with
  | control c =>
    obtain ⟨insn, hread, hdec, -⟩ := id hcut.stops
    have hback : Stop.past (nth s k) (.control c) - 8 = nth s k := BitVec.add_sub_cancel ..
    by_cases hk : c.k = .jalr
    · have hhints := Env.hintsAlone_hints (Env.isJr_of_read hread (by rw [hdec, hk]; decide))
      simp only [mkBlock, Stop.isUnresolvedCall, hback, hhints, and_self]
    · obtain ⟨kind, target, reg⟩ := c
      cases kind
      case jalr => exact absurd rfl hk
      all_goals exact ⟨rfl, rfl⟩
  | _ => exact ⟨rfl, rfl⟩

theorem cutBlocks_hintsAlone {p' : Pass1} (hp : p.SameGraph p') {l : List Word}
    (h : cutBlocks e n p l fn = some fn') : cutBlocks e.hintsAlone n p' l fn = some fn' := by
  obtain ⟨hseen, hbounds, hedges⟩ : p'.seen = p.seen ∧ p'.leaders ++ p'.ends = p.leaders ++ p.ends ∧
      p'.edges = p.edges := by
    obtain ⟨lg, rfl⟩ := hp
    exact ⟨rfl, rfl, rfl⟩
  have hbody : cutBody e.hintsAlone (p.leaders ++ p.ends) = cutBody e (p.leaders ++ p.ends) := rfl
  induction l generalizing fn with
  | nil => exact h
  | cons start rest ih =>
    unfold cutBlocks at h ⊢
    rw [hseen, hbounds, hedges, hbody]
    split_ifs at h ⊢
    · cases hloop : loop (cutBody e (p.leaders ++ p.ends)) n start with
      | none =>
        simp only [hloop] at h
        cases h
      | some x =>
        obtain ⟨pc, stop⟩ := x
        simp only [hloop] at h ⊢
        obtain ⟨k, hcut, rfl⟩ := Env.cut_spec hloop
        obtain ⟨hblock, hcall⟩ := @mkBlock_hintsAlone e start p.edges k stop _ hcut
        rw [hblock, hcall]
        exact ih h
    · exact ih h

theorem build_hintsAlone (hclean : Pass1.Clean e entry) (hw : Pass1.walk e n entry = some p)
    (h : build e n entry = some (fn, log)) :
    ∃ p', Pass1.walk e.hintsAlone n entry = some p' ∧ p'.leaders = p.leaders ∧
      build e.hintsAlone n entry = some (fn, p'.log) := by
  obtain ⟨p', hw', hsame⟩ := Pass1.walk_hintsAlone hclean hw
  refine ⟨p', hw', ?_, ?_⟩
  · obtain ⟨lg, rfl⟩ := hsame
    rfl
  · unfold build at h ⊢
    simp only [hw] at h
    obtain ⟨fn', hcut, hfn⟩ := Option.map_eq_some_iff.mp h
    obtain ⟨rfl, -⟩ := Prod.mk.inj hfn
    have hcut' := cutBlocks_hintsAlone hsame hcut
    obtain ⟨lg, rfl⟩ := hsame
    simp only [hw', hcut', Option.map_some]

/-- A read of a table that fails leaves what the hints alone give, and one that succeeds all its
entries. -/
structure LeavesNothing (e : Env) (n : ℕ) (entry : Word) (p : Pass1) (fn : Func) : Prop where
  failed : ∀ pc c, e.Reached entry pc → e.JrAt pc c → ∀ m l, e.jumpTable m pc = some (false, l) →
    p.edges (pc + 8) = some ((e.hints pc).getD [])
  unresolved : ∀ pc, e.Reached entry pc → e.Unresolved pc →
    (pc, "unresolved jr") ∈ p.log.problems ∧
      ∀ s b, (s, b) ∈ fn.blocks → b.end_ = pc + 8 → b.endsIndirect → b.unresolved
  read : ∀ pc c, e.Reached entry pc → e.JrAt pc c → ∀ m l, e.jumpTable m pc = some (true, l) →
    p.edges (pc + 8) = some l ∧ ∃ base count, e.Table pc base count ∧
      l.map some = (List.range count.toNat).map (e.entry base)
  same : ∃ p', Pass1.walk e.hintsAlone n entry = some p' ∧ p'.leaders = p.leaders ∧
    build e.hintsAlone n entry = some (fn, p'.log)

/-- The edges of a jr are those its table, its hints or a failed read give. -/
theorem edges_of_jr {e : Env} {n m : ℕ} {entry pc : Word} {p : Pass1} {c : Ctl} {ok : Bool}
    {l : List Word} (hw : Pass1.walk e n entry = some p) (hr : e.Reached entry pc)
    (hc : e.JrAt pc c) (hl : e.jumpTable m pc = some (ok, l)) :
    p.edges (pc + 8) = some (if ok then l else (e.hints pc).getD l) := by
  obtain ⟨hinv, hwork⟩ := Pass1.walk_inv hw
  have hsuccs : e.Succs pc c (if ok then l else (e.hints pc).getD l) := by
    unfold Env.Succs
    rw [hc.2.1]
    simp only
    rw [if_neg hc.2.2]
    refine ⟨m, ok, ?_⟩
    rw [Env.jrTargets, hl, Option.map_some]
    cases ok with
    | true => rfl
    | false => rfl
  exact ((hinv.done hwork).edges _ _).mpr ⟨pc, c, hr, hc.1, hsuccs, rfl⟩

/-- A block that a jr without successors ends is marked. -/
theorem Built.marked {e : Env} {entry pc s : Word} {p : Pass1} {fn : Func} {b : Block}
    (h : Built e entry p fn) (hb : (s, b) ∈ fn.blocks) (hend : b.end_ = pc + 8)
    (hind : b.endsIndirect) (hed : p.edges (pc + 8) = some []) : b.unresolved := by
  obtain ⟨k, stop, hcut, rfl⟩ := h.blocks s b hb
  obtain ⟨c, rfl, hk, hreg⟩ := (mkBlock_flags stop).indirect.mp hind
  have hpast : nth s k + 8 = pc + 8 := (mkBlock_spec (.control c)).2.1.symm.trans hend
  simp only [mkBlock, Stop.past, hk, if_neg hreg, hpast, hed, Option.getD_some, List.isEmpty_nil]

/-- Reads that fail leave nothing just when no jr that is reached without hints has a table whose
first word is read and some other is not. -/
theorem leavesNothing_iff {e : Env} {n : ℕ} {entry : Word} {p : Pass1} {fn : Func} {log : Log}
    (hw : Pass1.walk e n entry = some p) (hb : build e n entry = some (fn, log)) :
    LeavesNothing e n entry p fn ↔
      ∀ pc c, e.Reached entry pc → e.JrAt pc c → e.hints pc = none → e.WholeOrNothing pc := by
  constructor
  · intro h pc c hr hc hh
    rw [Env.wholeOrNothing_iff]
    intro m l hl
    have hclaim := h.failed pc c hr hc m l hl
    rw [edges_of_jr hw hr hc hl, hh] at hclaim
    exact Option.some.inj hclaim
  · intro hclean
    obtain ⟨hinv, hwork⟩ := Pass1.walk_inv hw
    have hbuilt := (build_walked hw hb).1
    have hfailed (pc : Word) (c : Ctl) (hr : e.Reached entry pc) (hc : e.JrAt pc c) (m : ℕ)
        (l : List Word) (hl : e.jumpTable m pc = some (false, l)) :
        p.edges (pc + 8) = some ((e.hints pc).getD []) := by
      rw [edges_of_jr hw hr hc hl]
      cases hh : e.hints pc with
      | some ts => rfl
      | none => rw [Env.wholeOrNothing_iff.mp (hclean pc c hr hc hh) m l hl]; rfl
    refine ⟨hfailed, fun pc hr hu => ?_, fun pc c hr hc m l hl => ?_, build_hintsAlone hclean hw hb⟩
    · obtain ⟨c, hc⟩ := hu.jr
      obtain ⟨m, l, hl⟩ := hu.failed
      have hed := hfailed pc c hr hc m l hl
      rw [hu.hints] at hed
      exact ⟨Pass1.walk_reported hw pc (hinv.mem_terms hwork hr hc.1) hu,
        fun s b hmem hend hind => hbuilt.marked hmem hend hind hed⟩
    · obtain ⟨base, count, htable, hx⟩ := Env.jumpTable_spec hl (by simp)
      refine ⟨edges_of_jr hw hr hc hl, base, count, htable, ?_⟩
      have hok : (e.tableEntries base 0 count.toNat).1 = true := by rw [← hx]
      have hwords := Env.tableEntries_words hok
      rwa [← hx, ← List.range_eq_range'] at hwords

def noTable : Env where
  read a := if a = 0 then some 0x01000008 else if a = 4 then some 0 else none
  hints _ := none

def noTableWalk : Pass1 := (Pass1.walk noTable 8 0).get rfl
def noTableFunc : Func × Log := (build noTable 8 0).get rfl

theorem leavesNothing_iff_noTable : LeavesNothing noTable 8 0 noTableWalk noTableFunc.1 ↔
    ∀ pc c, noTable.Reached 0 pc → noTable.JrAt pc c → noTable.hints pc = none →
      noTable.WholeOrNothing pc :=
  leavesNothing_iff (show Pass1.walk noTable 8 0 = some noTableWalk from rfl)
    (show build noTable 8 0 = some (noTableFunc.1, noTableFunc.2) from rfl)

/-- A table of two words at 0x200, of which the second is not readable. -/
def halfTable : Env where
  read a :=
    match a with
    | 0x100 => some 0x2ca10002
    | 0x104 => some 0x10200006
    | 0x108 => some 0x00054080
    | 0x10c => some 0x3c010000
    | 0x110 => some 0x00280821
    | 0x114 => some 0x8c280200
    | 0x118 => some 0x01000008
    | 0x11c => some 0
    | 0x120 => some 0x03e00008
    | 0x124 => some 0
    | 0x128 => some 0x03e00008
    | 0x12c => some 0
    | 0x200 => some 0x128
    | _ => none
  hints _ := none

def halfTableWalk : Pass1 := (Pass1.walk halfTable 20 0x100).get rfl
def halfTableFunc : Func × Log := (build halfTable 20 0x100).get rfl

theorem halfTable_reached : halfTable.Reached 0x100 0x118 := by
  have hbeq : halfTable.Reached 0x100 0x104 := .fall .entry ⟨0x2ca10002, rfl, by decide⟩
  have hafter : halfTable.Reached 0x100 0x10c :=
    .succ hbeq ⟨0x10200006, rfl, rfl, by decide, by decide⟩ (show _ = [_, _] from rfl) (by decide)
  have haddu : halfTable.Reached 0x100 0x110 := .fall hafter ⟨0x3c010000, rfl, by decide⟩
  have hlw : halfTable.Reached 0x100 0x114 := .fall haddu ⟨0x00280821, rfl, by decide⟩
  exact .fall hlw ⟨0x8c280200, rfl, by decide⟩

/-- The first entry of the table is left: it is a successor and a leader, and the block that the jr
ends is not marked. -/
theorem not_leavesNothing : halfTable.jumpTable 20 0x118 = some (false, [0x128]) ∧
    Pass1.walk halfTable 20 0x100 = some halfTableWalk ∧
    build halfTable 20 0x100 = some halfTableFunc ∧
    halfTableWalk.edges 0x120 = some [0x128] ∧ 0x128 ∈ halfTableWalk.leaders ∧
    (0x10c, ⟨0x10c, 0x120, [0x128], false, false, false, false, true, false⟩) ∈
      halfTableFunc.1.blocks ∧
    ¬ LeavesNothing halfTable 20 0x100 halfTableWalk halfTableFunc.1 := by
  have hfail : halfTable.jumpTable 20 0x118 = some (false, [0x128]) := rfl
  have hed : halfTableWalk.edges 0x120 = some [0x128] := rfl
  have hblocks : halfTableFunc.1.blocks[1]? =
      some (0x10c, ⟨0x10c, 0x120, [0x128], false, false, false, false, true, false⟩) := rfl
  refine ⟨hfail, rfl, rfl, hed, by decide, List.mem_of_getElem? hblocks, fun h => ?_⟩
  have hjr : halfTable.JrAt 0x118 ⟨.jr, 0, 8⟩ :=
    ⟨⟨0x01000008, rfl, rfl, by decide, by decide⟩, rfl, by decide⟩
  have hnil := h.failed 0x118 _ halfTable_reached hjr 20 _ hfail
  cases hed.symm.trans hnil

end RspBt.R4300
