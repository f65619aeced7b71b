import RspBt.R4300.Linked

namespace RspBt.R4300

open Lib

variable {t : Emitter} {g : Guest} {gf : Func} {b : Block} {pc target link : Word}
  {f : Frame} {q : StateT} {c : Calls} {entry : Word} {p : Pass1} {n k d N : ℕ} {x y : Config}
  {s : Mach} {fns : Word → Mach → Mach → Word → Prop}

def Finishes (t : Emitter) (gf : Func) (c : Calls) (x : Config) : Prop :=
  ∃ s' r, Relation.ReflTransGen (Step t gf c) x (.returned s' r)

theorem finishes_leaving (f : Frame) (r : Word) : Finishes t gf c (.leaving f r) :=
  ⟨_, r, .single .exit⟩

theorem Finishes.head (hxy : Step t gf c x y) (h : Finishes t gf c y) : Finishes t gf c x := by
  obtain ⟨s', r, hrun⟩ := h
  exact ⟨s', r, .head hxy hrun⟩

def Guest.Mapped (g : Guest) (e : Env) (q : StateT) (N : ℕ) : Prop :=
  ∀ n < N, e.read (lo32 (g.after q n).pc) ≠ none

theorem Guest.ReturnsAfter.lt (hret : g.ReturnsAfter q N)
    (hn : g.nesting q n = some d) : n < N := by
  by_contra hle
  rw [Guest.nesting_none (Nat.le_of_not_lt hle) hret.1] at hn
  cases hn

theorem Guest.Mapped.after {e : Env} (h : g.Mapped e q N) (hk : n + k ≤ N) :
    g.Mapped e (g.after q n) k := by
  intro i hi
  rw [Guest.after_add]
  exact h (n + i) (by omega)

theorem Built.unread_of_empty (h : Built t.cfg entry p gf) (htop : t.cfg.BelowTop entry) {a : Word}
    (hb : (a, b) ∈ gf.blocks) (hempty : ¬ b.start < b.end_) : t.cfg.read b.start = none := by
  obtain ⟨k, stop, hcut, hstart, hend⟩ := h.scan hb
  have hlow (j : ℕ) (hj : j < k + stop.words) : nth a j < 0xfffffffc :=
    htop _ (hcut.executed (h.target hb) hj)
  have hlen := toNat_nth hlow le_rfl
  rw [hend, Stop.past_nth, hstart, BitVec.lt_def, hlen] at hempty
  obtain ⟨rfl, hwords⟩ : k = 0 ∧ stop.words = 0 := by omega
  rw [hstart]
  cases stop with
  | unread => exact nth_zero a ▸ hcut.stops
  | bound => exact absurd rfl (hcut.first rfl)
  | trap => cases hwords
  | control ctl => cases hwords

/-- A call comes back when the guest's callee returns within the budget. -/
theorem Disciplined.exists_does (h : Disciplined t g q) (hfns : Faithful t g fns)
    {direct : Option Word} (hd : ∀ e ∈ direct, e = target ∧ t.decls e) (hpc : q.pc = sext32 target)
    (hs : Same q.m s) (hra : q.ra = sext32 link) (hav : g.Avoids q link)
    (hret : g.ReturnsAfter q N) (hN : N < 2 ^ 32)
    (hall : t.decls target → ∃ s' r, fns target s s' r) :
    ∃ s', (R4300bt.calls g fns).Does direct target link s s' := by
  cases direct with
  | none =>
    have hfirst := (h.entered_iff hra hav hpc hs).mpr hret
    exact ⟨_, _, N, r4300btCall_iff.mpr ⟨N, hN, hfirst, rfl⟩⟩
  | some e =>
    obtain ⟨rfl, hdecl⟩ := hd e rfl
    obtain ⟨s1, r, hrun⟩ := hall hdecl
    obtain ⟨k, ⟨rfl, -, -⟩ | ⟨hne, hdepth, hat, hover⟩⟩ := hfns _ _ _ _ hrun q h hpc hs
    · exact ⟨s1, s1, 0, hrun, rfl⟩
    · have hkN := hret.lt hdepth
      have hfirst : g.FirstAt ⟨s1, sext32 r⟩ link (N - k) := by
        rw [h.bailed_iff hra hav hdepth hat hover, Nat.add_sub_cancel' hkN.le]
        exact hret
      refine ⟨(g.after ⟨s1, sext32 r⟩ (N - k)).m, s1, r, hrun, ?_⟩
      rw [if_neg hne]
      exact ⟨_, N - k, r4300btCall_iff.mpr ⟨N - k, by omega, hfirst, rfl⟩⟩

/-- Until the activation returns the code has a step to take: a call in it comes back. -/
theorem Built.exists_step (h : Built t.cfg entry p gf) (htop : t.cfg.BelowTop entry)
    (hd : Disciplined t g q) (hfns : Faithful t g fns) (hN : N < 2 ^ 32)
    (hret : g.ReturnsAfter q N) (hmap : g.Mapped t.cfg q N)
    (hall : ∀ q' e m K, Disciplined t g q' → q'.pc = sext32 e → Same q'.m m →
      g.ReturnsAfter q' K → g.Mapped t.cfg q' K → K < N → t.decls e → ∃ s' r, fns e m s' r)
    (hscan : (Config.inside b pc f).Scanned t.cfg entry gf)
    (hx : (Config.inside b pc f).Along t g q n) :
    ∃ y, Step t gf (R4300bt.calls g fns) (.inside b pc f) y := by
  have hm := h.along_matches htop hd hscan hx
  obtain ⟨hdepth, hpc, hs⟩ := hx
  cases hw : t.emitWord gf b pc f with
  | word f' => exact ⟨_, .word hw⟩
  | branch f' a => exact ⟨_, .branch hw⟩
  | leave f' r => exact ⟨_, .leave hw⟩
  | call f' direct target link tail =>
    rw [hw] at hm
    cases hm with
    | call he hdir hpc' hs' =>
      have hnext : g.after q (n + 1) =
          g.execMips (g.after q n) := Function.iterate_succ_apply' ..
      have hlink := hd.linked n he
      have hav := hd.avoids n he
      rw [hpc, lo32_sext32] at hlink hav
      rw [← hnext] at hpc' hs'
      have hlt := hret.lt hdepth
      obtain ⟨K, hK, hKN⟩ := hret.callee hlt (Guest.nesting_call hdepth he)
      obtain ⟨s', hs''⟩ := (hd.callee he).exists_does hfns hdir hpc' hs' hlink hav hK (by omega)
        (hall _ _ _ K (hd.callee he) hpc' hs' hK (hmap.after (by omega)) (by omega))
      exact ⟨_, .call hw hs''⟩

/-- By induction on how far the activation still is from its return. -/
theorem Built.finishes (h : Built t.cfg entry p gf) (htop : t.cfg.BelowTop entry)
    (hd : Disciplined t g q) (hfns : Faithful t g fns) (hN : N < 2 ^ 32)
    (hret : g.ReturnsAfter q N) (hmap : g.Mapped t.cfg q N)
    (hall : ∀ q' e m K, Disciplined t g q' → q'.pc = sext32 e → Same q'.m m →
      g.ReturnsAfter q' K → g.Mapped t.cfg q' K → K < N → t.decls e → ∃ s' r, fns e m s' r)
    (hscan : x.Scanned t.cfg entry gf) (hx : x.Along t g q n) :
    Finishes t gf (R4300bt.calls g fns) x := by
  obtain ⟨j, hj⟩ : ∃ j, j = N - n := ⟨_, rfl⟩
  induction j using Nat.strong_induction_on generalizing n x with
  | _ j ih =>
    subst hj
    -- a word inside a block takes the guest an instruction on
    have hword {b : Block} {pc : Word} {f : Frame} {k : ℕ} (hk : n ≤ k) (hlt : pc < b.end_)
        (hscan : (Config.inside b pc f).Scanned t.cfg entry gf)
        (hx : (Config.inside b pc f).Along t g q k) :
        Finishes t gf (R4300bt.calls g fns) (.inside b pc f) := by
      obtain ⟨y, hxy⟩ := h.exists_step htop hd hfns hN hret hmap hall hscan hx
      obtain ⟨l, -, hy, hprog⟩ := h.along_step htop hd hfns hscan hxy hx
      refine .head hxy ?_
      rcases hprog b pc f rfl hlt with hkl | ⟨f', r, rfl⟩
      · have hkN := hret.lt hx.1
        exact ih (N - l) (by omega) (hxy.scanned h hscan) hy rfl
      · exact finishes_leaving f' r
    cases x with
    | returned s' r => exact ⟨s', r, .refl⟩
    | leaving f r => exact finishes_leaving f r
    | inside b pc f =>
      by_cases hlt : pc < b.end_
      · exact hword le_rfl hlt hscan hx
      · obtain ⟨y, hxy⟩ := h.exists_step htop hd hfns hN hret hmap hall hscan hx
        obtain ⟨l, hl, hy, -⟩ := h.along_step htop hd hfns hscan hxy hx
        refine .head hxy ?_
        have hy' : y = gf.blockFor b.end_ f := hxy.of_end hlt
        rcases gf.blockFor_cases b.end_ f with ⟨b', hb', heq⟩ | ⟨-, heq⟩
        · rw [hy', heq] at hy ⊢
          have hscan' := hxy.scanned h hscan
          rw [hy', heq] at hscan'
          refine hword hl ?_ hscan' hy
          by_contra hempty
          have hread := hmap l (hret.lt hy.1)
          rw [hy.2.1, lo32_sext32] at hread
          exact hread (h.unread_of_empty htop hb' hempty)
        · rw [hy', heq]
          exact finishes_leaving _ _

/-- Every function returns when the guest's activation does, by induction on how long that takes. -/
theorem R4300bt.Made.finishes {p : R4300bt} (hp : p.Made) (hN : N < 2 ^ 32)
    (hd : Disciplined p.emitter g q) (hret : g.ReturnsAfter q N)
    (hmap : g.Mapped p.emitter.cfg q N)
    (hpc : q.pc = sext32 entry) (hs : Same q.m s) (hfn : p.have_ entry = true) :
    ∃ s' r, p.Runs g entry s s' r := by
  induction N using Nat.strong_induction_on generalizing q entry s with
  | _ N ih =>
    obtain ⟨gf, hgf⟩ := Option.isSome_iff_exists.mp hfn
    obtain ⟨n, log, hbuild⟩ := hp.built entry gf hgf
    obtain ⟨pass, h, -⟩ := build_spec hbuild
    have hstart : (gf.start entry s).Along p.emitter g q 0 :=
      h.along_blockFor hd rfl hpc (hs.trans (.of_gpr s fun r hr => if_neg hr))
    obtain ⟨s', r, hrun⟩ := h.finishes (hp.below entry gf hgf) hd hp.faithful hN hret hmap
      (fun q' e m K hd' hpc' hs' hret' hmap' hK hdecl => by
        obtain ⟨ge, hge⟩ := hp.decls e hdecl
        refine ih K hK (by omega) hd' hret' hmap' hpc' hs' ?_
        rw [R4300bt.have_, hge]
        rfl) (h.scanned_blockFor _ _) hstart
    exact ⟨s', r, R4300bt.runs_iff.mpr ⟨gf, hgf, hrun⟩⟩

theorem runs_delivers {e : Env} {fp : FpUnit} {m : ℕ} {roots : List Word} {c : Cfg}
    (hdisc : Cfg.discover e m roots = some c) (htop : ∀ f, (c.funcs f).isSome → e.BelowTop f)
    {entries : List Word} {s' : Mach} {r : Word}
    (hd : Disciplined (translate e fp c entries).emitter g ⟨s, sext32 entry⟩)
    (hrun : (translate e fp c entries).Runs g entry s s' r) :
    ∃ k, Delivers (translate e fp c entries).emitter g ⟨s, sext32 entry⟩ k s' r :=
  (made_translate hdisc htop entries).faithful entry s s' r hrun _ hd rfl (.refl s)

/-- What a return of `r` leaves the caller to do: nothing for 0, else the interpreter is to be
resumed at `r`.  Either way it ends in the state `q`. -/
def Completes (g : Guest) (s : Mach) (r : Word) (q : StateT) : Prop :=
  if r = 0 then Same q.m s else ∃ k, 0 < k ∧ Alike q (g.after ⟨s, sext32 r⟩ k)

/-- A return of a function, with the rest left to the interpreter, completes the activation. -/
theorem Delivers.completes {s' : Mach} {r : Word} (h : Delivers t g q n s' r)
    (hd : Disciplined t g q) (hret : g.ReturnsAfter q N) :
    Completes g s' r (g.after q N) := by
  rcases h with ⟨rfl, hret', hs⟩ | ⟨hne, hdepth, hat, hover⟩
  · obtain rfl := hret'.unique hret
    exact (if_pos rfl).mpr hs
  · obtain ⟨k, rfl⟩ := Nat.exists_eq_add_of_lt (hret.lt hdepth)
    have halike := hd.alike_handedOver hover k
    rw [hat] at halike
    exact (if_neg hne).mpr ⟨k + 1, k.succ_pos, halike⟩

/-- Whenever the guest's activation returns within the budget, from code that can be read, a call
of the translated function comes back, and with the interpreter run on where it says the state is
the guest's. -/
theorem runs_completes {e : Env} {fp : FpUnit} {m : ℕ} {roots : List Word} {c : Cfg}
    (hdisc : Cfg.discover e m roots = some c) (htop : ∀ f, (c.funcs f).isSome → e.BelowTop f)
    {entries : List Word} (hentry : (translate e fp c entries).have_ entry = true)
    (hd : Disciplined (translate e fp c entries).emitter g ⟨s, sext32 entry⟩)
    (hN : N < 2 ^ 32) (hret : g.ReturnsAfter ⟨s, sext32 entry⟩ N)
    (hmap : g.Mapped e ⟨s, sext32 entry⟩ N) :
    (∃ s' r, (translate e fp c entries).Runs g entry s s' r) ∧
      ∀ s' r, (translate e fp c entries).Runs g entry s s' r →
        Completes g s' r (g.after ⟨s, sext32 entry⟩ N) := by
  have hp : (translate e fp c entries).Made := made_translate hdisc htop entries
  refine ⟨hp.finishes hN hd hret hmap rfl (.refl s) hentry, fun s' r hrun => ?_⟩
  obtain ⟨n, hn⟩ := hp.faithful entry s s' r hrun _ hd rfl (.refl s)
  exact hn.completes hd hret

/-- A function at 0x100 that calls the one at 0x140, whose first word is left to the interpreter. -/
def bailing : Env where
  read a := [(0x100, 0x03e08025),  -- or $16, $31, $0
    (0x104, 0x0c000050),           -- jal 0x140
    (0x108, 0),
    (0x10c, 0x0200f825),           -- or $31, $16, $0
    (0x110, 0x03e00008),           -- jr $31
    (0x114, 0),
    (0x140, 0x40800000),           -- mtc0 $0, $0
    (0x144, 0x03e00008),           -- jr $31
    (0x148, 0)].lookup a
  hints _ := none

def bailingCaller : Func where
  entry := 0x100
  leaf := false
  blocks := [(0x100, ⟨0x100, 0x10c, [0x10c], true, false, false, false, false, false⟩),
    (0x10c, ⟨0x10c, 0x118, [], false, true, false, false, false, false⟩)]
  calls := [0x140]
  indirectSites := []
  unresolvedCalls := 0
  nInsns := 6

def bailingCallee : Func where
  entry := 0x140
  leaf := true
  blocks := [(0x140, ⟨0x140, 0x14c, [], false, true, false, false, false, false⟩)]
  calls := []
  indirectSites := []
  unresolvedCalls := 0
  nInsns := 3

def bailingCfg : Cfg :=
  (Cfg.init.record 0x100 bailingCaller ⟨[], 0, 0, 0⟩).record 0x140 bailingCallee ⟨[], 0, 0, 0⟩

theorem build_bailingCaller :
    build bailing 8 0x100 = some (bailingCaller, ⟨[], 0, 0, 0⟩) := rfl

theorem build_bailingCallee :
    build bailing 8 0x140 = some (bailingCallee, ⟨[], 0, 0, 0⟩) := rfl

theorem discover_bailing : Cfg.discover bailing 8 [0x100] = some bailingCfg := by
  have hfirst : Cfg.discoverBody bailing 8 (Cfg.init, [0x100]) =
      some (.inl (Cfg.init.record 0x100 bailingCaller ⟨[], 0, 0, 0⟩, [0x140])) := by
    simp only [Cfg.discoverBody, build_bailingCaller]
    rfl
  have hsecond : Cfg.discoverBody bailing 8
      (Cfg.init.record 0x100 bailingCaller ⟨[], 0, 0, 0⟩, [0x140]) =
      some (.inl (bailingCfg, [])) := by
    simp only [Cfg.discoverBody, build_bailingCallee]
    rfl
  have hlast : Cfg.discoverBody bailing 8 (bailingCfg, []) = some (.inr bailingCfg) := rfl
  rw [Cfg.discover, loop_next hfirst, loop_next hsecond, loop_done hlast]

def bailingBt : R4300bt := translate bailing .zero bailingCfg [0x100, 0x140]

def bailingRest (q : StateT) : StateT :=
  if lo32 q.pc = 0x140 then ⟨q.m, sext32 0x144⟩ else q

def bailingGuest : Guest := bailing.guest .zero bailingRest

def bailingState : Mach := { Mach.zero with gpr := fun r => if r = 31 then 0x200 else 0 }

theorem bailing_returns : bailingGuest.ReturnsAfter ⟨bailingState, sext32 0x100⟩ 6 := by
  unfold Guest.ReturnsAfter
  decide

theorem bailing_callee_returns : bailingGuest.ReturnsAfter
    (bailingGuest.after ⟨bailingState, sext32 0x100⟩ 2) 2 := by
  unfold Guest.ReturnsAfter
  decide

theorem bailing_word {a insn : Word} (h : bailing.read a = some insn) :
    accessBytes insn = 0 ∧ (isLink insn → a = 0x104 ∧ ¬ (insn.op = 0x00 ∧ insn.rs = 31)) := by
  have hall : ([(0x100, 0x03e08025), (0x104, 0x0c000050), (0x108, 0), (0x10c, 0x0200f825),
      (0x110, 0x03e00008), (0x114, 0), (0x140, 0x40800000), (0x144, 0x03e00008), (0x148, 0)] :
      List (Word × Word)).all fun x => accessBytes x.2 = 0 ∧
        (isLink x.2 → x.1 = 0x104 ∧ ¬ (x.2.op = 0x00 ∧ x.2.rs = 31)) := by decide
  exact of_decide_eq_true (List.all_eq_true.mp hall (a, insn) (mem_of_lookup h))

theorem bailing_apart (q : StateT) : ApartAt bailingBt.emitter bailingGuest q where
  insn _ hr := .inl (bailing_word hr).1
  slot _ _ _ _ hslot _ := .inl (bailing_word hslot).1
  step m hs := by
    refine Env.guest_step (fun a insn hr => (bailing_word hr).1) (fun m hm => ?_) hs
    unfold bailingRest
    split_ifs
    · exact ⟨rfl, hm⟩
    · exact ⟨rfl, hm⟩

theorem bailing_after (n : ℕ) : bailingGuest.after ⟨bailingState, sext32 0x100⟩ n =
    bailingGuest.after ⟨bailingState, sext32 0x100⟩ (min n 6) := by
  have hpc : lo32 (bailingGuest.after ⟨bailingState, sext32 0x100⟩ 6).pc = 0x200 := by decide
  have hstay (q : StateT) (hq : lo32 q.pc = 0x200) : bailingGuest.execMips q = q := by
    have hrest : bailingRest q = q := if_neg (by rw [hq]; decide)
    exact (Env.guest_unread (by rw [hq]; decide)).trans hrest
  exact Guest.after_min (hstay _ hpc) n

theorem bailing_call {n : ℕ}
    (h : bailingGuest.event (bailingGuest.after ⟨bailingState, sext32 0x100⟩ n) = .call) :
    n = 1 := by
  have hall : ∀ j < 7, bailingGuest.event (bailingGuest.after ⟨bailingState, sext32 0x100⟩ j) =
      .call → j = 1 := by decide
  rw [bailing_after] at h
  have hn := hall _ (by omega) h
  omega

theorem bailing_disciplined :
    Disciplined bailingBt.emitter bailingGuest ⟨bailingState, sext32 0x100⟩ where
  mips n := by
    refine Env.guest_mips fun insn hr hlink => ?_
    rw [((bailing_word hr).2 hlink).1]
    exact ⟨0, _, rfl, rfl, rfl⟩
  events n := Env.guest_events
  nonzero n := by
    have hall : ∀ j < 7, lo32 (bailingGuest.after ⟨bailingState, sext32 0x100⟩ j).pc ≠ 0 := by
      decide
    rw [bailing_after]
    exact hall _ (by omega)
  apart n := bailing_apart _
  jalr n insn hr hlink := ((bailing_word hr).2 hlink).2
  linked n hcall := by
    obtain rfl := bailing_call hcall
    decide
  follows := by
    refine ⟨fun n hn => ?_, fun i hi => ?_⟩
    · obtain rfl := hn.unique bailing_returns
      decide
    · obtain rfl := bailing_call hi
      intro n hn
      obtain rfl := hn.unique bailing_callee_returns
      decide
  avoids n hcall := by
    obtain rfl := bailing_call hcall
    intro k hlive
    have hk : k < 2 := by
      by_contra hle
      exact hlive (Guest.nesting_none (Nat.le_of_not_lt hle) bailing_callee_returns.1)
    have hall : ∀ j < 2, lo32 (bailingGuest.after
        (bailingGuest.after ⟨bailingState, sext32 0x100⟩ 2) j).pc ≠
        lo32 (bailingGuest.after ⟨bailingState, sext32 0x100⟩ 1).pc + 8 := by decide
    exact hall k hk

theorem bailing_below (f : Word) (hf : (bailingCfg.funcs f).isSome) : bailing.BelowTop f := by
  have hor : f = 0x140 ∨ f = 0x100 := by
    rcases (Cfg.record_isSome ..).mp hf with rfl | hf
    · exact .inl rfl
    · rcases (Cfg.record_isSome ..).mp hf with rfl | hf
      · exact .inr rfl
      · cases hf
  rcases hor with rfl | rfl
  · refine Env.belowTop_of (l := [0x140, 0x144]) (fun a ha => ha.mem_of (by decide) ?_) ?_
    · simp only [List.forall_mem_cons, List.not_mem_nil, false_implies, implies_true, and_true]
      exact ⟨⟨_, rfl, by decide⟩, ⟨_, rfl, by decide⟩⟩
    · simp only [List.forall_mem_cons, List.not_mem_nil, false_implies, implies_true, and_true]
      decide
  · refine Env.belowTop_of (l := [0x100, 0x104, 0x10c, 0x110])
      (fun a ha => ha.mem_of (by decide) ?_) ?_
    · simp only [List.forall_mem_cons, List.not_mem_nil, false_implies, implies_true, and_true]
      exact ⟨⟨_, rfl, by decide⟩, ⟨_, rfl, by decide⟩, ⟨_, rfl, by decide⟩, ⟨_, rfl, by decide⟩⟩
    · simp only [List.forall_mem_cons, List.not_mem_nil, false_implies, implies_true, and_true]
      decide

theorem bailing_mapped : bailingGuest.Mapped bailing ⟨bailingState, sext32 0x100⟩ 6 := by
  unfold Guest.Mapped
  decide

theorem runs_delivers_bailing : ∃ s' r k, Delivers bailingBt.emitter bailingGuest
    ⟨bailingState, sext32 0x100⟩ k s' r := by
  obtain ⟨s', r, hrun⟩ := (made_translate discover_bailing bailing_below [0x100, 0x140]).finishes
    (by decide) bailing_disciplined bailing_returns
    bailing_mapped rfl (.refl bailingState) rfl
  obtain ⟨k, hk⟩ := runs_delivers discover_bailing bailing_below bailing_disciplined hrun
  exact ⟨s', r, k, hk⟩

theorem runs_completes_bailing :
    (∃ s' r, bailingBt.Runs bailingGuest 0x100 bailingState s' r) ∧
      ∀ s' r, bailingBt.Runs bailingGuest 0x100 bailingState s' r →
        Completes bailingGuest s' r (bailingGuest.after ⟨bailingState, sext32 0x100⟩ 6) :=
  runs_completes discover_bailing bailing_below rfl bailing_disciplined (by decide) bailing_returns
    bailing_mapped

end RspBt.R4300
