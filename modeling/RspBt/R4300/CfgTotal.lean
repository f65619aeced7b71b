import RspBt.R4300.CfgCut

namespace RspBt.R4300

open Lib

def Env.Unmapped (e : Env) : Prop := ∀ r < 4, ∃ a, a.toNat % 4 = r ∧ e.read a = none

theorem toNat_sub_four {d : Word} (h4 : d.toNat % 4 = 0) (h0 : d ≠ 0) :
    (d - 4).toNat % 4 = 0 ∧ (d - 4).toNat < d.toNat := by
  have hd : d.toNat ≠ 0 := fun h => h0 (BitVec.eq_of_toNat_eq h)
  have hsub : (d - 4).toNat = (2 ^ 32 - 4 + d.toNat) % 2 ^ 32 := BitVec.toNat_sub ..
  have hlt := d.isLt
  omega

theorem sub_mod_four {a b : Word} (h : a.toNat % 4 = b.toNat % 4) : (a - b).toNat % 4 = 0 := by
  have hsub : (a - b).toNat = (2 ^ 32 - b.toNat + a.toNat) % 2 ^ 32 := BitVec.toNat_sub ..
  have ha := a.isLt
  have hb := b.isLt
  omega

theorem sub_ne_zero_of_read {e : Env} {a b : Word} (ha : e.read a ≠ none) (hb : e.read b = none) :
    a - b ≠ 0 := by
  intro h
  have hab : a = b := by
    have hadd := congrArg (· + b) h
    simpa [BitVec.sub_add_cancel] using hadd
  exact ha (hab ▸ hb)

def scanBound : ℕ := 2 ^ 32

namespace Env

variable {σ ρ : Type*} {e : Env} {n : ℕ}

theorem Unmapped.exists (h : e.Unmapped) (pc : Word) :
    ∃ u, u.toNat % 4 = pc.toNat % 4 ∧ e.read u = none := h _ (Nat.mod_lt _ (by decide))

/-- A loop whose cursor goes down by one word while it reads one. -/
theorem Unmapped.down (h : e.Unmapped) (hn : scanBound ≤ n) {body : σ → Option (σ ⊕ ρ)}
    (cur : σ → Word) (hstep : ∀ s, (∃ r, body s = some (.inr r)) ∨
      e.read (cur s) ≠ none ∧ ∃ s', body s = some (.inl s') ∧ cur s' = cur s - 4) (s : σ) :
    ∃ r, loop body n s = some r := by
  obtain ⟨u, hmod, hu⟩ := h.exists (cur s)
  obtain ⟨r, hr, -⟩ := loop_total (fun s => (cur s - u).toNat % 4 = 0) (fun _ => True)
    (fun s => (cur s - u).toNat) (by
      intro s hs
      rcases hstep s with ⟨r, hr⟩ | ⟨hread, s', hs', hcur⟩
      · exact .inl ⟨r, hr, trivial⟩
      · obtain ⟨h4, hlt⟩ := toNat_sub_four hs (sub_ne_zero_of_read hread hu)
        have hcomm : cur s - 4 - u = cur s - u - 4 := by bv_omega
        rw [← hcomm, ← hcur] at h4 hlt
        exact .inr ⟨s', hs', h4, hlt⟩)
    (sub_mod_four hmod.symm) (lt_of_lt_of_le (cur s - u).isLt hn)
  exact ⟨r, hr⟩

/-- A loop whose cursor goes up by one word while it reads one. -/
theorem Unmapped.up (h : e.Unmapped) (hn : scanBound ≤ n) {body : σ → Option (σ ⊕ ρ)}
    (cur : σ → Word) (hstep : ∀ s, (∃ r, body s = some (.inr r)) ∨
      e.read (cur s) ≠ none ∧ ∃ s', body s = some (.inl s') ∧ cur s' = cur s + 4) (s : σ) :
    ∃ r, loop body n s = some r := by
  obtain ⟨u, hmod, hu⟩ := h.exists (cur s)
  obtain ⟨r, hr, -⟩ := loop_total (fun s => (u - cur s).toNat % 4 = 0) (fun _ => True)
    (fun s => (u - cur s).toNat) (by
      intro s hs
      rcases hstep s with ⟨r, hr⟩ | ⟨hread, s', hs', hcur⟩
      · exact .inl ⟨r, hr, trivial⟩
      · have hne : u - cur s ≠ 0 := by
          intro h0
          exact sub_ne_zero_of_read hread hu (by bv_omega)
        obtain ⟨h4, hlt⟩ := toNat_sub_four hs hne
        have hcomm : u - (cur s + 4) = u - cur s - 4 := by bv_omega
        rw [← hcomm, ← hcur] at h4 hlt
        exact .inr ⟨s', hs', h4, hlt⟩)
    (sub_mod_four hmod) (lt_of_lt_of_le (u - cur s).isLt hn)
  exact ⟨r, hr⟩

theorem boundBody_total (h : e.Unmapped) (hn : scanBound ≤ n) (pc q : Word) :
    ∃ count, loop (e.boundBody pc) n q = some count := by
  refine h.down hn id (fun q => ?_) q
  unfold boundBody
  split_ifs with hle
  · cases hread : e.read q with
    | none => exact .inl ⟨_, rfl⟩
    | some insn =>
      simp only
      split_ifs
      · exact .inl ⟨_, rfl⟩
      · exact .inr ⟨by simp [hread], _, rfl, rfl⟩
  · exact .inl ⟨_, rfl⟩

theorem tableBody_total (h : e.Unmapped) (hn : scanBound ≤ n) (jrPc : Word) (st : Scan × Word) :
    ∃ r, loop (e.tableBody n jrPc) n st = some r := by
  refine h.down hn Prod.snd (fun st => ?_) st
  unfold tableBody
  simp only
  split_ifs with hle
  · cases hread : e.read st.2 with
    | none => exact .inl ⟨_, rfl⟩
    | some insn =>
      simp only
      split_ifs
      · exact .inr ⟨by simp, _, rfl, rfl⟩
      · obtain ⟨count, hc⟩ := boundBody_total h hn st.2 (st.2 - 4)
        rw [hc]
        exact .inl ⟨_, rfl⟩
      · exact .inr ⟨by simp, _, rfl, rfl⟩
  · exact .inl ⟨_, rfl⟩

theorem jrTargets_total (h : e.Unmapped) (hn : scanBound ≤ n) (pc : Word) :
    ∃ r, e.jrTargets n pc = some r := by
  unfold jrTargets jumpTable
  cases e.read pc with
  | none => exact ⟨_, rfl⟩
  | some insn =>
    obtain ⟨r, hr⟩ := tableBody_total h hn pc (⟨0, insn.rs, false⟩, pc - 4)
    simp only [hr, Option.map_some]
    exact ⟨_, rfl⟩

theorem cutBody_total (h : e.Unmapped) (hn : scanBound ≤ n) (bounds : List Word) (s : Word) :
    ∃ r, loop (cutBody e bounds) n s = some r := by
  refine h.up hn id (fun pc => ?_) s
  unfold cutBody
  cases hread : e.read pc with
  | none => exact .inl ⟨_, rfl⟩
  | some insn =>
    simp only
    split_ifs
    · exact .inl ⟨_, rfl⟩
    · exact .inl ⟨_, rfl⟩
    · exact .inl ⟨_, rfl⟩
    · exact .inr ⟨by simp [hread], _, rfl, rfl⟩

end Env

namespace Pass1

variable {e : Env} {n m : ℕ} {entry : Word} {p q : Pass1}

theorem terminator_total (h : e.Unmapped) (hn : scanBound ≤ n) (p : Pass1) (pc : Word) (c : Ctl) :
    ∃ r, p.terminator e n pc c = some r := by
  unfold terminator
  cases c.k
  case jr =>
    simp only
    split_ifs
    · exact ⟨_, rfl⟩
    · obtain ⟨r, hr⟩ := Env.jrTargets_total h hn pc
      rw [hr]
      exact ⟨_, rfl⟩
  case jalr =>
    simp only
    cases e.hints pc with
    | none => exact ⟨_, rfl⟩
    | some l => exact ⟨_, rfl⟩
  all_goals exact ⟨_, rfl⟩

theorem run_total (h : e.Unmapped) (hn : scanBound ≤ n) (p : Pass1) (pc : Word) :
    ∃ q, loop (runBody e n) n (p, pc) = some q := by
  refine h.up hn Prod.snd (fun st => ?_) (p, pc)
  unfold runBody
  cases hread : e.read st.2 with
  | none =>
    simp only [hread]
    exact .inl ⟨_, rfl⟩
  | some insn =>
    simp only [hread]
    split_ifs
    · exact .inr ⟨by simp, _, rfl, rfl⟩
    · exact .inl ⟨_, rfl⟩
    · exact .inl ⟨_, rfl⟩
    · obtain ⟨r, hr⟩ := terminator_total h hn
        { st.1 with terms := insert st.2 st.1.terms, ends := insert (st.2 + 8) st.1.ends }
        st.2 (decode st.2 insn)
      rw [hr]
      exact .inl ⟨_, rfl⟩

theorem Leaves.seen {pc : Word} (h : Leaves e p pc q) : q.seen = p.seen := by
  cases h with
  | unmapped | trap | known => rfl
  | transfer hc hl hsame => exact hsame.seen

theorem run_seen {pc : Word} (h : loop (runBody e n) m (p, pc) = some q) : q.seen = p.seen := by
  obtain ⟨⟨p', pc'⟩, hp, hlast⟩ := loop_inv (fun st : Pass1 × Word => st.1.seen = p.seen)
    (by
      rintro ⟨p', pc'⟩ st' hp hb
      rcases runBody_cases hb with ⟨-, hst⟩ | ⟨q, hst, -⟩
      · obtain rfl := Sum.inl.inj hst
        exact hp
      · cases hst)
    rfl h
  rcases runBody_cases hlast with ⟨-, hst⟩ | ⟨q', hst, hq⟩
  · cases hst
  · obtain rfl := Sum.inr.inj hst
    exact hq.seen.trans hp

theorem terminator_mono (hnm : n ≤ m) {pc : Word} {c : Ctl} {r : Pass1 × List Word}
    (h : p.terminator e n pc c = some r) : p.terminator e m pc c = some r := by
  unfold terminator at h ⊢
  cases hk : c.k
  case jr =>
    simp only [hk] at h ⊢
    split_ifs at h ⊢
    · exact h
    · obtain ⟨x, hx, rfl⟩ := Option.map_eq_some_iff.mp h
      obtain ⟨y, hy, rfl⟩ := Option.map_eq_some_iff.mp hx
      rw [Env.jrTargets, Env.jumpTable_mono hnm hy]
      rfl
  all_goals
    simp only [hk] at h ⊢
    exact h

theorem runBody_mono (hnm : n ≤ m) (st : Pass1 × Word) (x : (Pass1 × Word) ⊕ Pass1)
    (h : runBody e n st = some x) : runBody e m st = some x := by
  unfold runBody at h ⊢
  cases hread : e.read st.2 with
  | none =>
    simp only [hread] at h ⊢
    exact h
  | some insn =>
    simp only [hread] at h ⊢
    split_ifs at h ⊢
    · exact h
    · exact h
    · exact h
    · obtain ⟨r, hr, rfl⟩ := Option.map_eq_some_iff.mp h
      rw [terminator_mono hnm hr]
      rfl

theorem workBody_mono (hnm : n ≤ m) (p : Pass1) (x : Pass1 ⊕ Pass1)
    (h : workBody e n p = some x) : workBody e m p = some x := by
  unfold workBody at h ⊢
  cases hw : p.work with
  | nil =>
    simp only [hw] at h ⊢
    exact h
  | cons pc rest =>
    simp only [hw] at h ⊢
    split_ifs at h ⊢
    · exact h
    · obtain ⟨q, hq, rfl⟩ := Option.map_eq_some_iff.mp h
      rw [loop_mono (runBody_mono hnm) hnm hq]
      rfl

/-- Each turn of the walk sees a word more, or has one less to look at. -/
theorem workBody_total (h : e.Unmapped) (hn : scanBound ≤ n) (p : Pass1) :
    (∃ q, workBody e n p = some (.inr q)) ∨ ∃ q, workBody e n p = some (.inl q) ∧
      Advances (· ∈ p.seen) (· ∈ q.seen) p.work.length q.work.length := by
  unfold workBody
  cases hw : p.work with
  | nil => exact .inl ⟨_, rfl⟩
  | cons pc rest =>
    simp only
    split_ifs with hseen
    · refine .inr ⟨_, rfl, .inr ⟨fun a => Iff.rfl, ?_⟩⟩
      rw [List.length_cons]
      exact Nat.lt_succ_self _
    · obtain ⟨q, hq⟩ := run_total h hn { p with work := rest, seen := insert pc p.seen } pc
      refine .inr ⟨q, by rw [hq]; rfl, .inl ⟨?_, pc, ?_, hseen⟩⟩
      · intro a ha
        rw [run_seen hq]
        exact mem_insert.mpr (.inr ha)
      · rw [run_seen hq]
        exact mem_insert.mpr (.inl rfl)

theorem walk_total (h : e.Unmapped) (entry : Word) :
    ∃ N p, ∀ n, N ≤ n → walk e n entry = some p := by
  have hturn (p : Pass1) (_ : True) : (∃ q, workBody e scanBound p = some (.inr q) ∧ True) ∨
      ∃ q, workBody e scanBound p = some (.inl q) ∧ True ∧
        Advances (· ∈ p.seen) (· ∈ q.seen) p.work.length q.work.length := by
    rcases workBody_total h le_rfl p with ⟨q, hq⟩ | ⟨q, hq, hlt⟩
    · exact .inl ⟨q, hq, trivial⟩
    · exact .inr ⟨q, hq, trivial, hlt⟩
  obtain ⟨N, p, hp, -⟩ := loop_search (fun (p : Pass1) a => a ∈ p.seen) (fun p => p.work.length)
    (fun _ => True) (fun _ => True) hturn (s := init entry) trivial
  refine ⟨max N scanBound, p, fun n hn => ?_⟩
  exact loop_mono (workBody_mono (le_trans (Nat.le_max_right ..) hn))
    (le_trans (Nat.le_max_left ..) hn) hp

end Pass1

variable {e : Env} {n m : ℕ} {entry : Word}

theorem cutBlocks_total (h : e.Unmapped) (hn : scanBound ≤ n) (p : Pass1) (l : List Word)
    (fn : Func) : ∃ fn', ∀ m, n ≤ m → cutBlocks e m p l fn = some fn' := by
  induction l generalizing fn with
  | nil => exact ⟨fn, fun m _ => rfl⟩
  | cons start rest ih =>
    by_cases hseen : start ∈ p.seen
    · obtain ⟨⟨pc, stop⟩, hcut⟩ := Env.cutBody_total h hn (p.leaders ++ p.ends) start
      obtain ⟨fn', hfn'⟩ := ih { fn with
        blocks := fn.blocks ++ [(start, mkBlock e p.edges start pc stop)]
        unresolvedCalls := fn.unresolvedCalls + if stop.isUnresolvedCall e pc then 1 else 0
        nInsns := fn.nInsns + ((mkBlock e p.edges start pc stop).end_ -
          (mkBlock e p.edges start pc stop).start).toNat / 4 }
      refine ⟨fn', fun m hm => ?_⟩
      rw [cutBlocks, if_neg (not_not_intro hseen), loop_mono_fuel hm hcut]
      exact hfn' m hm
    · obtain ⟨fn', hfn'⟩ := ih fn
      refine ⟨fn', fun m hm => ?_⟩
      rw [cutBlocks, if_pos hseen]
      exact hfn' m hm

/-- With an unmapped word in the way of every scan, `build` ends, and what it records does not
depend on the turns it was allowed. -/
theorem build_total (h : e.Unmapped) (entry : Word) :
    ∃ N r, ∀ n, N ≤ n → build e n entry = some r := by
  obtain ⟨N, p, hp⟩ := Pass1.walk_total h entry
  obtain ⟨fn, hfn⟩ := cutBlocks_total h le_rfl p p.leaders
    ⟨entry, p.leaf, [], p.calls, p.indirectSites, 0, 0⟩
  refine ⟨max N scanBound, (fn, p.log), fun n hn => ?_⟩
  unfold build
  rw [hp n (le_trans (Nat.le_max_left ..) hn)]
  simp only [hfn n (le_trans (Nat.le_max_right ..) hn), Option.map_some]

end RspBt.R4300
