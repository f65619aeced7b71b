import RspBt.R4300.Discover

namespace RspBt.R4300

open Lib

namespace Env

variable (e : Env)

/-- A call of `callee` at `pc`: a jal there, or a jalr with a hint that it goes there. -/
def CallsAt (pc callee : Word) : Prop :=
  ∃ c, e.TermAt pc c ∧ (c.k = .call ∧ callee = c.target ∨
    c.k = .jalr ∧ ∃ ts, e.hints pc = some ts ∧ callee ∈ ts)

def JalrAt (pc : Word) : Prop := ∃ c, e.TermAt pc c ∧ c.k = .jalr

def LinksAt (pc : Word) : Prop := ∃ c, e.TermAt pc c ∧ (c.k = .call ∨ c.k = .jalr)

/-- Called from a root, directly or through other functions, by code that is reached in them. -/
inductive CallReached (roots : List Word) : Word → Prop
  | root {f : Word} (h : f ∈ roots) : CallReached roots f
  | call {f pc callee : Word} (h : CallReached roots f) (hr : e.Reached f pc)
      (hc : e.CallsAt pc callee) : CallReached roots callee

end Env

namespace Pass1

variable {e : Env} {n : ℕ} {entry pc : Word} {p q : Pass1}

structure Links (e : Env) (p : Pass1) : Prop where
  calls : ∀ t, t ∈ p.calls ↔ ∃ pc ∈ p.terms, e.CallsAt pc t
  leaf : p.leaf = true ↔ ∀ pc ∈ p.terms, ¬ e.LinksAt pc
  sites : ∀ x, x ∈ p.indirectSites ↔ x ∈ p.terms ∧ e.JalrAt x

structure Adds (e : Env) (p : Pass1) (pc : Word) (c : Ctl) (q : Pass1) : Prop where
  terms : q.terms = p.terms
  calls : ∀ t, t ∈ q.calls ↔ (c.k = .call ∧ t = c.target ∨
    c.k = .jalr ∧ ∃ ts, e.hints pc = some ts ∧ t ∈ ts) ∨ t ∈ p.calls
  leaf : q.leaf = true ↔ ¬ (c.k = .call ∨ c.k = .jalr) ∧ p.leaf = true
  sites : ∀ x, x ∈ q.indirectSites ↔ x = pc ∧ c.k = .jalr ∨ x ∈ p.indirectSites

theorem terminator_adds {c : Ctl} {l : List Word} (h : p.terminator e n pc c = some (q, l)) :
    Adds e p pc c q := by
  obtain ⟨k, target, reg⟩ := c
  cases k
  case call =>
    simp only [terminator] at h
    obtain ⟨rfl, -⟩ := Prod.mk.inj (Option.some.inj h)
    refine ⟨rfl, fun t => ?_, ?_, fun x => ?_⟩
    · simp
    · simp
    · simp
  case jalr =>
    simp only [terminator] at h
    cases hh : e.hints pc with
    | none =>
      simp only [hh] at h
      obtain ⟨rfl, -⟩ := Prod.mk.inj (Option.some.inj h)
      refine ⟨rfl, fun t => ?_, ?_, fun x => ?_⟩
      · simp [hh]
      · simp
      · simp
    | some ts =>
      simp only [hh] at h
      obtain ⟨rfl, -⟩ := Prod.mk.inj (Option.some.inj h)
      refine ⟨rfl, fun t => ?_, ?_, fun x => ?_⟩
      · rw [mem_foldl_insert]
        simp [hh]
      · simp
      · simp
  case jr =>
    simp only [terminator] at h
    have hq : q.terms = p.terms ∧ q.calls = p.calls ∧ q.leaf = p.leaf ∧
        q.indirectSites = p.indirectSites := by
      split_ifs at h
      · obtain ⟨rfl, -⟩ := Prod.mk.inj (Option.some.inj h)
        exact ⟨rfl, rfl, rfl, rfl⟩
      · obtain ⟨r, -, hr⟩ := Option.map_eq_some_iff.mp h
        obtain ⟨rfl, -⟩ := Prod.mk.inj hr
        exact ⟨rfl, rfl, rfl, rfl⟩
    obtain ⟨hterms, hcalls, hleaf, hsites⟩ := hq
    refine ⟨hterms, fun t => ?_, ?_, fun x => ?_⟩
    · simp [hcalls]
    · simp [hleaf]
    · simp [hsites]
  all_goals
    obtain ⟨rfl, -⟩ := Prod.mk.inj (Option.some.inj h)
    refine ⟨rfl, fun t => ?_, ?_, fun x => ?_⟩
    · simp
    · simp
    · simp

theorem Links.transfer (h : Links e p) {c : Ctl} (hc : e.TermAt pc c)
    (hq : Adds e { p with terms := insert pc p.terms, ends := insert (pc + 8) p.ends } pc c q) :
    Links e q := by
  have hterms (x : Word) : x ∈ q.terms ↔ x = pc ∨ x ∈ p.terms := by
    rw [hq.terms]
    exact mem_insert
  have hcall (t : Word) : (c.k = .call ∧ t = c.target ∨
      c.k = .jalr ∧ ∃ ts, e.hints pc = some ts ∧ t ∈ ts) ↔ e.CallsAt pc t := by
    constructor
    · exact fun ht => ⟨c, hc, ht⟩
    · rintro ⟨c', hc', ht⟩
      obtain rfl := hc.unique hc'
      exact ht
  have hlink : (c.k = .call ∨ c.k = .jalr) ↔ e.LinksAt pc := by
    constructor
    · exact fun hk => ⟨c, hc, hk⟩
    · rintro ⟨c', hc', hk⟩
      obtain rfl := hc.unique hc'
      exact hk
  have hjalr : c.k = .jalr ↔ e.JalrAt pc := by
    constructor
    · exact fun hk => ⟨c, hc, hk⟩
    · rintro ⟨c', hc', hk⟩
      obtain rfl := hc.unique hc'
      exact hk
  refine ⟨fun t => ?_, ?_, fun x => ?_⟩
  · rw [hq.calls, hcall]
    change e.CallsAt pc t ∨ t ∈ p.calls ↔ _
    rw [h.calls]
    constructor
    · rintro (ht | ⟨x, hx, ht⟩)
      · exact ⟨pc, (hterms pc).mpr (.inl rfl), ht⟩
      · exact ⟨x, (hterms x).mpr (.inr hx), ht⟩
    · rintro ⟨x, hx, ht⟩
      rcases (hterms x).mp hx with rfl | hx
      · exact .inl ht
      · exact .inr ⟨x, hx, ht⟩
  · rw [hq.leaf, hlink]
    change ¬ e.LinksAt pc ∧ p.leaf = true ↔ _
    rw [h.leaf]
    constructor
    · rintro ⟨hpc, hall⟩ x hx
      rcases (hterms x).mp hx with rfl | hx
      · exact hpc
      · exact hall x hx
    · intro hall
      exact ⟨hall pc ((hterms pc).mpr (.inl rfl)), fun x hx => hall x ((hterms x).mpr (.inr hx))⟩
  · rw [hq.sites, hjalr]
    change x = pc ∧ e.JalrAt pc ∨ x ∈ p.indirectSites ↔ _
    rw [h.sites, hterms]
    constructor
    · rintro (⟨rfl, hj⟩ | ⟨hx, hj⟩)
      · exact ⟨.inl rfl, hj⟩
      · exact ⟨.inr hx, hj⟩
    · rintro ⟨rfl | hx, hj⟩
      · exact .inl ⟨rfl, hj⟩
      · exact .inr ⟨hx, hj⟩

theorem Links.runBody {x : (Pass1 × Word) ⊕ Pass1} (h : Links e p)
    (hb : runBody e n (p, pc) = some x) : x = .inl (p, pc + 4) ∨ ∃ q, x = .inr q ∧ Links e q := by
  simp only [Pass1.runBody] at hb
  cases hr : e.read pc with
  | none =>
    simp only [hr] at hb
    exact .inr ⟨_, (Option.some.inj hb).symm, ⟨h.calls, h.leaf, h.sites⟩⟩
  | some insn =>
    simp only [hr] at hb
    split_ifs at hb with hf ht hm
    · exact .inl (Option.some.inj hb).symm
    · exact .inr ⟨_, (Option.some.inj hb).symm, ⟨h.calls, h.leaf, h.sites⟩⟩
    · exact .inr ⟨p, (Option.some.inj hb).symm, h⟩
    · obtain ⟨⟨q, l⟩, hterm, rfl⟩ := Option.map_eq_some_iff.mp hb
      have hq := h.transfer ⟨insn, hr, rfl, hf, ht⟩ (terminator_adds hterm)
      exact .inr ⟨_, rfl, ⟨hq.calls, hq.leaf, hq.sites⟩⟩

theorem Links.run (h : Links e p) (hloop : loop (Pass1.runBody e n) n (p, pc) = some q) :
    Links e q := by
  obtain ⟨⟨p', pc'⟩, hp', hlast⟩ := loop_inv (fun st : Pass1 × Word => Links e st.1)
    (by
      rintro ⟨p, pc⟩ st' hp hb
      rcases hp.runBody hb with hst | ⟨q, hst, -⟩
      · obtain rfl := Sum.inl.inj hst
        exact hp
      · cases hst) h hloop
  rcases Links.runBody (p := p') hp' hlast with hst | ⟨q', hst, hq⟩
  · cases hst
  · obtain rfl := Sum.inr.inj hst
    exact hq

theorem walk_links (h : walk e n entry = some p) : Links e p := by
  have hinit : Links e (init entry) := by
    refine ⟨fun t => ?_, ?_, fun x => ?_⟩ <;> simp [init]
  obtain ⟨q, hq, hlast⟩ := loop_inv (Links e)
    (fun p p' hp hb => by
      cases workBody_cases hb with
      | skip => exact ⟨hp.calls, hp.leaf, hp.sites⟩
      | run _ _ hloop =>
        refine Links.run ?_ hloop
        exact ⟨hp.calls, hp.leaf, hp.sites⟩) hinit h
  obtain ⟨rfl, -⟩ := walk_done hlast
  exact hq

end Pass1

variable {e : Env} {n m : ℕ} {entry f : Word} {fn : Func} {log : Log} {roots : List Word} {c : Cfg}

theorem build_walk (h : build e n entry = some (fn, log)) :
    ∃ p, Pass1.walk e n entry = some p ∧ Built e entry p fn := by
  cases hw : Pass1.walk e n entry with
  | none =>
    simp only [build, hw] at h
    cases h
  | some p => exact ⟨p, rfl, (build_walked hw h).1⟩

theorem build_calls (h : build e n entry = some (fn, log)) (t : Word) :
    t ∈ fn.calls ↔ ∃ pc, e.Reached entry pc ∧ e.CallsAt pc t := by
  obtain ⟨p, hw, hbuilt⟩ := build_walk h
  obtain ⟨hinv, hwork⟩ := Pass1.walk_inv hw
  rw [hbuilt.calls, (Pass1.walk_links hw).calls]
  constructor
  · rintro ⟨pc, hpc, ht⟩
    exact ⟨pc, (hinv.terms pc hpc).reached, ht⟩
  · rintro ⟨pc, hr, c, hc, ht⟩
    exact ⟨pc, hinv.mem_terms hwork hr hc, c, hc, ht⟩

theorem cutBlocks_mono (hnm : n ≤ m) {p : Pass1} (l : List Word) {fn fn' : Func}
    (h : cutBlocks e n p l fn = some fn') : cutBlocks e m p l fn = some fn' := by
  induction l generalizing fn with
  | nil => exact h
  | cons start rest ih =>
    rw [cutBlocks] at h ⊢
    split_ifs at h ⊢
    · cases hloop : loop (cutBody e (p.leaders ++ p.ends)) n start with
      | none =>
        simp only [hloop] at h
        cases h
      | some x =>
        simp only [hloop] at h
        simp only [loop_mono_fuel hnm hloop]
        exact ih h
    · exact ih h

theorem build_mono (hnm : n ≤ m) {r : Func × Log} (h : build e n entry = some r) :
    build e m entry = some r := by
  unfold build at h ⊢
  cases hw : Pass1.walk e n entry with
  | none =>
    simp only [hw] at h
    cases h
  | some p =>
    have hw' : Pass1.walk e m entry = some p := loop_mono (Pass1.workBody_mono hnm) hnm hw
    simp only [hw, hw'] at h ⊢
    obtain ⟨fn, hcut, rfl⟩ := Option.map_eq_some_iff.mp h
    rw [cutBlocks_mono hnm p.leaders hcut]
    rfl

theorem build_unique {r r' : Func × Log} (h : build e n entry = some r)
    (h' : build e m entry = some r') : r = r' := by
  have hl := build_mono (Nat.le_max_left n m) h
  have hr := build_mono (Nat.le_max_right n m) h'
  exact Option.some.inj (hl.symm.trans hr)

namespace Cfg

theorem discoverBody_inv {st : Cfg × List Word} {x : (Cfg × List Word) ⊕ Cfg}
    (h : Inv e n roots st) (hb : discoverBody e n st = some x) :
    (∃ st', x = .inl st' ∧ Inv e n roots st') ∨ x = .inr st.1 ∧ st.2 = [] := by
  obtain ⟨c, work⟩ := st
  cases work with
  | nil => exact .inr ⟨(Option.some.inj hb).symm, rfl⟩
  | cons f work =>
    left
    unfold discoverBody at hb
    simp only at hb
    split_ifs at hb with hf
    · exact ⟨_, (Option.some.inj hb).symm, h.skip hf⟩
    · obtain ⟨⟨fn, log⟩, hbuild, rfl⟩ := Option.map_eq_some_iff.mp hb
      exact ⟨_, rfl, h.record (by simpa using hf) hbuild⟩

/-- The search keeps its invariant, wherever it starts. -/
theorem search_inv {st : Cfg × List Word} (hst : Inv e n roots st)
    (h : loop (discoverBody e n) n st = some c) : Inv e n roots (c, []) := by
  obtain ⟨⟨c', work⟩, hinv, hlast⟩ := loop_inv (Inv e n roots)
    (fun st st' hst hb => by
      rcases discoverBody_inv hst hb with ⟨st'', heq, hst'⟩ | ⟨heq, -⟩
      · obtain rfl := Sum.inl.inj heq
        exact hst'
      · cases heq) hst h
  rcases discoverBody_inv hinv hlast with ⟨st', heq, -⟩ | ⟨heq, hwork⟩
  · cases heq
  · obtain rfl := Sum.inr.inj heq
    obtain rfl : work = [] := hwork
    exact hinv

theorem discover_inv (h : discover e n roots = some c) : Inv e n roots (c, []) :=
  search_inv (inv_init e n roots) h

theorem Inv.reached (hinv : Inv e n roots (c, [])) (f : Word) :
    (c.funcs f).isSome ↔ e.CallReached roots f := by
  have hfound {g : Word} (hg : (c.funcs g).isSome ∨ g ∈ ([] : List Word)) : (c.funcs g).isSome :=
    hg.resolve_right List.not_mem_nil
  constructor
  · intro hf
    have hcalled : Called c.funcs roots f := hinv.called f (.inl hf)
    induction hcalled with
    | root hr => exact .root hr
    | @call f callee fn _ hfn hc ih =>
      obtain ⟨log, hbuild⟩ := hinv.built f fn hfn
      obtain ⟨pc, hr, hcall⟩ := (build_calls hbuild callee).mp hc
      exact .call (ih (by rw [hfn]; rfl)) hr hcall
  · intro hf
    induction hf with
    | root hr => exact hfound (hinv.rooted _ hr)
    | @call f pc callee _ hr hcall ih =>
      obtain ⟨fn, hfn⟩ := Option.isSome_iff_exists.mp ih
      obtain ⟨log, hbuild⟩ := hinv.built f fn hfn
      have hmem := (build_calls hbuild callee).mpr ⟨pc, hr, hcall⟩
      exact hfound (hinv.calls f fn hfn callee hmem)

/-- The functions that are found are those that the calls lead to from the roots, each as `build`
makes it. -/
theorem discover_iff (h : discover e n roots = some c) (f : Word) :
    (∀ fn, c.funcs f = some fn → ∃ log, build e n f = some (fn, log)) ∧
      ((c.funcs f).isSome ↔ e.CallReached roots f) :=
  ⟨(discover_inv h).built f, (discover_inv h).reached f⟩

def logOf (e : Env) (n : ℕ) (f : Word) : Log :=
  match build e n f with
  | some (_, log) => log
  | none => ⟨[], 0, 0, 0⟩

/-- The log is that of the functions built, one after the other. -/
structure Logged (e : Env) (n : ℕ) (c : Cfg) : Prop where
  problems : c.log.problems = c.builds.flatMap fun f => (logOf e n f).problems
  nJrStatic : c.log.nJrStatic = (c.builds.map fun f => (logOf e n f).nJrStatic).sum
  nJrHint : c.log.nJrHint = (c.builds.map fun f => (logOf e n f).nJrHint).sum
  nTraps : c.log.nTraps = (c.builds.map fun f => (logOf e n f).nTraps).sum

theorem Logged.record (h : Logged e n c) (hb : build e n f = some (fn, log)) :
    Logged e n (c.record f fn log) := by
  have hlog : logOf e n f = log := by
    simp only [logOf, hb]
  refine ⟨?_, ?_, ?_, ?_⟩
  · simp only [Cfg.record, Log.append, List.flatMap_append, List.flatMap_singleton, hlog, h.problems]
  · simp only [Cfg.record, Log.append, List.map_append, List.sum_append, List.map_singleton,
      List.sum_singleton, hlog, h.nJrStatic]
  · simp only [Cfg.record, Log.append, List.map_append, List.sum_append, List.map_singleton,
      List.sum_singleton, hlog, h.nJrHint]
  · simp only [Cfg.record, Log.append, List.map_append, List.sum_append, List.map_singleton,
      List.sum_singleton, hlog, h.nTraps]

theorem search_logged {st : Cfg × List Word} (hst : Logged e n st.1)
    (h : loop (discoverBody e n) n st = some c) : Logged e n c := by
  have hturn {st : Cfg × List Word} {x : (Cfg × List Word) ⊕ Cfg} (hst : Logged e n st.1)
      (hb : discoverBody e n st = some x) :
      (∃ st', x = .inl st' ∧ Logged e n st'.1) ∨ ∃ c, x = .inr c ∧ Logged e n c := by
    obtain ⟨c, work⟩ := st
    cases work with
    | nil => exact .inr ⟨c, (Option.some.inj hb).symm, hst⟩
    | cons f work =>
      left
      unfold discoverBody at hb
      simp only at hb
      split_ifs at hb
      · exact ⟨_, (Option.some.inj hb).symm, hst⟩
      · obtain ⟨⟨fn, log⟩, hbuild, rfl⟩ := Option.map_eq_some_iff.mp hb
        exact ⟨_, rfl, hst.record hbuild⟩
  obtain ⟨st', hst', hlast⟩ := loop_inv (fun st : Cfg × List Word => Logged e n st.1)
    (fun st st' hst hb => by
      rcases hturn hst hb with ⟨st'', heq, hst'⟩ | ⟨c, heq, -⟩
      · obtain rfl := Sum.inl.inj heq
        exact hst'
      · cases heq) hst h
  rcases hturn hst' hlast with ⟨st'', heq, -⟩ | ⟨c', heq, hc⟩
  · cases heq
  · obtain rfl := Sum.inr.inj heq
    exact hc

theorem logged_init : Logged e n init := ⟨rfl, rfl, rfl, rfl⟩

theorem callReached_mono {roots' : List Word} (hroots : ∀ g ∈ roots, g ∈ roots')
    (h : e.CallReached roots f) : e.CallReached roots' f := by
  induction h with
  | root hr => exact .root (hroots _ hr)
  | call _ hr hc ih => exact .call ih hr hc

/-- The same functions and counts, and the problems in another order at most. -/
structure SameFound (c c' : Cfg) : Prop where
  funcs : c.funcs = c'.funcs
  builds : c.builds.Perm c'.builds
  problems : c.log.problems.Perm c'.log.problems
  nJrStatic : c.log.nJrStatic = c'.log.nJrStatic
  nJrHint : c.log.nJrHint = c'.log.nJrHint
  nTraps : c.log.nTraps = c'.log.nTraps

/-- What two searches found does not depend on how they went, if their roots are the same. -/
theorem Inv.sameFound {roots' : List Word} {c' : Cfg} (hinv : Inv e n roots (c, []))
    (hl : Logged e n c) (hinv' : Inv e m roots' (c', [])) (hl' : Logged e m c')
    (hroots : ∀ g, g ∈ roots ↔ g ∈ roots') : SameFound c c' := by
  have hreach (f : Word) : e.CallReached roots f ↔ e.CallReached roots' f :=
    ⟨callReached_mono fun g => (hroots g).mp, callReached_mono fun g => (hroots g).mpr⟩
  have hsome (f : Word) : (c.funcs f).isSome ↔ (c'.funcs f).isSome := by
    rw [hinv.reached f, hinv'.reached f, hreach]
  have hfuncs : c.funcs = c'.funcs := by
    funext f
    cases hf : c.funcs f with
    | none =>
      have hnone := (hsome f).not.mp (by rw [hf]; simp)
      exact (Option.not_isSome_iff_eq_none.mp hnone).symm
    | some fn =>
      obtain ⟨gn, hg⟩ := Option.isSome_iff_exists.mp ((hsome f).mp (by rw [hf]; rfl))
      obtain ⟨log, hb⟩ := hinv.built f fn hf
      obtain ⟨log', hb'⟩ := hinv'.built f gn hg
      obtain ⟨rfl, -⟩ := Prod.mk.inj (build_unique hb hb')
      exact hg.symm
  have hperm : c.builds.Perm c'.builds := by
    refine (List.perm_ext_iff_of_nodup hinv.nodup hinv'.nodup).mpr fun f => ?_
    rw [hinv.builds, hinv'.builds, hsome]
  have hsame : ∀ f ∈ c.builds, logOf e n f = logOf e m f := by
    intro f hf
    obtain ⟨fn, hfn⟩ := Option.isSome_iff_exists.mp ((hinv.builds f).mp hf)
    obtain ⟨log, hb⟩ := hinv.built f fn hfn
    obtain ⟨log', hb'⟩ := hinv'.built f fn (hfuncs ▸ hfn)
    simp only [logOf, hb, hb']
    exact congrArg Prod.snd (build_unique hb hb')
  have hsum (g : Log → ℕ) : (c.builds.map fun f => g (logOf e n f)).sum =
      (c'.builds.map fun f => g (logOf e m f)).sum := by
    have hmap : (c.builds.map fun f => g (logOf e n f)) = c.builds.map fun f => g (logOf e m f) :=
      List.map_congr_left fun f hf => congrArg g (hsame f hf)
    rw [hmap]
    exact (hperm.map _).sum_eq
  refine ⟨hfuncs, hperm, ?_, ?_, ?_, ?_⟩
  · have hflat : c.builds.flatMap (fun f => (logOf e n f).problems) =
        c.builds.flatMap fun f => (logOf e m f).problems :=
      List.flatMap_congr fun f hf => congrArg Log.problems (hsame f hf)
    rw [hl.problems, hl'.problems, hflat]
    exact hperm.flatMap_right _
  · rw [hl.nJrStatic, hl'.nJrStatic]
    exact hsum Log.nJrStatic
  · rw [hl.nJrHint, hl'.nJrHint]
    exact hsum Log.nJrHint
  · rw [hl.nTraps, hl'.nTraps]
    exact hsum Log.nTraps

/-- The same roots, in any order and any number of times, find the same. -/
theorem discover_roots {roots' : List Word} {c' : Cfg} (h : discover e n roots = some c)
    (h' : discover e m roots' = some c') (hroots : ∀ g, g ∈ roots ↔ g ∈ roots') : SameFound c c' :=
  (discover_inv h).sameFound (search_logged logged_init h) (discover_inv h')
    (search_logged logged_init h') hroots

def oneCallFunc : Func where
  entry := 0
  leaf := false
  blocks := [(0, ⟨0, 8, [8], true, false, false, false, false, false⟩),
    (8, ⟨8, 16, [], false, true, false, false, false, false⟩)]
  calls := [0x40]
  indirectSites := []
  unresolvedCalls := 0
  nInsns := 4

def oneCallCallee : Func where
  entry := 0x40
  leaf := true
  blocks := [(0x40, ⟨0x40, 0x48, [], false, true, false, false, false, false⟩)]
  calls := []
  indirectSites := []
  unresolvedCalls := 0
  nInsns := 2

theorem build_oneCall : build oneCall 8 0 = some (oneCallFunc, ⟨[], 0, 0, 0⟩) := rfl

theorem build_oneCallCallee : build oneCall 8 0x40 = some (oneCallCallee, ⟨[], 0, 0, 0⟩) := rfl

theorem discover_oneCall : discover oneCall 8 [0, 0x40] = some
    ((init.record 0 oneCallFunc ⟨[], 0, 0, 0⟩).record 0x40 oneCallCallee ⟨[], 0, 0, 0⟩) := by
  have hfirst : discoverBody oneCall 8 (init, [0, 0x40]) =
      some (.inl (init.record 0 oneCallFunc ⟨[], 0, 0, 0⟩, [0x40, 0x40])) := by
    simp only [discoverBody, build_oneCall]
    rfl
  have hsecond : discoverBody oneCall 8 (init.record 0 oneCallFunc ⟨[], 0, 0, 0⟩, [0x40, 0x40]) =
      some (.inl ((init.record 0 oneCallFunc ⟨[], 0, 0, 0⟩).record 0x40 oneCallCallee
        ⟨[], 0, 0, 0⟩, [0x40])) := by
    simp only [discoverBody, build_oneCallCallee]
    rfl
  rw [discover, loop_next hfirst, loop_next hsecond]
  rfl

/-- The callee is built first. -/
theorem discover_oneCall_swap : discover oneCall 8 [0x40, 0] = some
    ((init.record 0x40 oneCallCallee ⟨[], 0, 0, 0⟩).record 0 oneCallFunc ⟨[], 0, 0, 0⟩) := by
  have hfirst : discoverBody oneCall 8 (init, [0x40, 0]) =
      some (.inl (init.record 0x40 oneCallCallee ⟨[], 0, 0, 0⟩, [0])) := by
    simp only [discoverBody, build_oneCallCallee]
    rfl
  have hsecond : discoverBody oneCall 8 (init.record 0x40 oneCallCallee ⟨[], 0, 0, 0⟩, [0]) =
      some (.inl ((init.record 0x40 oneCallCallee ⟨[], 0, 0, 0⟩).record 0 oneCallFunc
        ⟨[], 0, 0, 0⟩, [])) := by
    simp only [discoverBody, build_oneCall]
    rfl
  rw [discover, loop_next hfirst, loop_next hsecond]
  rfl

theorem discover_iff_oneCall : ∃ c, discover oneCall 8 [0, 0x40] = some c ∧
    (∀ fn, c.funcs 0x40 = some fn → ∃ log, build oneCall 8 0x40 = some (fn, log)) ∧
    ((c.funcs 0x40).isSome ↔ oneCall.CallReached [0, 0x40] 0x40) :=
  ⟨_, discover_oneCall, discover_iff discover_oneCall 0x40⟩

theorem discover_roots_oneCall : ∃ c c', discover oneCall 8 [0, 0x40] = some c ∧
    discover oneCall 8 [0x40, 0] = some c' ∧ c.builds ≠ c'.builds ∧ c.funcs = c'.funcs := by
  refine ⟨_, _, discover_oneCall, discover_oneCall_swap, by decide, ?_⟩
  exact (discover_roots discover_oneCall discover_oneCall_swap (by simp [or_comm])).funcs

end Cfg

end RspBt.R4300
