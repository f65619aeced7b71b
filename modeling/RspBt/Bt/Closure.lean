import RspBt.Bt.Emit
import RspBt.Bt.WalkInv

namespace RspBt

open Lib

/-- The block emitted from an address on: where its last instruction stands, it ends. -/
inductive Emits (imem : Image) (w : Walk) (cx : ℕ) : Word → List RspInsn → Term → Prop
  | interp {a : Word} (h : imem.translatable a = false) : Emits imem w cx a [] (.interp a)
  | halt {a : Word} {i : RspInsn} (h : imem.BreakAt a i) : Emits imem w cx a [] .halt
  | control {a : Word} {i d : RspInsn} {t : Term} (h : imem.TransferAt a i d)
      (ht : i.controlIR d w.ctxs w.roots cx = some (w.ctxs, t)) : Emits imem w cx a [] t
  | br {a : Word} {i : RspInsn} (h : imem.StraightAt a i)
      (hl : ((a + 4) &&& 0xffc, cx) ∈ w.leaders) :
      Emits imem w cx a [i] (.br ((a + 4) &&& 0xffc, cx))
  | next {a : Word} {i : RspInsn} {is : List RspInsn} {t : Term} (h : imem.StraightAt a i)
      (hr : Emits imem w cx ((a + 4) &&& 0xffc) is t) : Emits imem w cx a (i :: is) t

namespace Walk

variable {imem : Image} {w : Walk} {cx : ℕ}

theorem transferAt_mask {a : Word} {i d : RspInsn} :
    imem.TransferAt (a &&& 0xffc) i d ↔ imem.TransferAt a i d := by
  rw [Image.TransferAt, Image.TransferAt, Image.at_mask, Image.at_mask_add_four]

theorem straightAt_mask {a : Word} {i : RspInsn} :
    imem.StraightAt (a &&& 0xffc) i ↔ imem.StraightAt a i := by
  rw [Image.StraightAt, Image.StraightAt, Image.at_mask]

theorem Done.erase (h : Done imem w) : Done imem (eraseRoots imem w) where
  inv := ⟨h.inv.wf, h.inv.nodup, h.inv.leaders_ctx, h.inv.walked_ctx, h.inv.walked_addr,
    h.inv.work_sub, h.inv.started,
    fun k hk => ⟨(h.inv.closed k hk).straight, (h.inv.closed k hk).transfer⟩, h.inv.exits⟩
  work := h.work
  led r hr := h.led r (List.mem_filter.mp hr).1

theorem indirectCases_targets (h : Done imem w) {i : RspInsn} (hi : i.isIndirect) {ret : List Key}
    (hret : returnKeys w.ctxs i cx = some ret) (hrs : ∀ l ∈ ret, l ∈ w.leaders) :
    ∃ cases, indirectCases w.ctxs w.roots cx = some cases ∧
      ∀ k ∈ cases.map Prod.snd, k ∈ w.leaders := by
  unfold indirectCases
  by_cases hcx : cx = 0
  · rw [if_neg (by simpa using hcx)]
    refine ⟨_, rfl, ?_⟩
    intro k hk
    obtain ⟨c, hc, rfl⟩ := List.mem_map.mp hk
    obtain ⟨r, hr, rfl⟩ := List.mem_map.mp hc
    exact h.led r hr
  · rw [if_pos hcx]
    unfold returnKeys at hret
    rw [if_pos ⟨hi, hcx⟩] at hret
    cases hback : (w.ctxs.str cx).getLast? with
    | none =>
      simp only [hback] at hret
      cases hret
    | some back =>
      cases hpop : w.ctxs.popCtx cx with
      | none =>
        simp only [hback, hpop] at hret
        cases hret
      | some id =>
        simp only [hback, hpop] at hret
        refine ⟨_, rfl, ?_⟩
        intro k hk
        apply hrs
        rw [← Option.some.inj hret]
        exact hk

/-- What a walked transfer can branch to is among the leaders, and emitting it adds no
context. -/
theorem Done.transfer (h : Done imem w) {a : Word} (ha : (a &&& 0xffc, cx) ∈ w.walked)
    {i d : RspInsn} (ht : imem.TransferAt a i d) :
    ∃ t, i.controlIR d w.ctxs w.roots cx = some (w.ctxs, t) ∧ ∀ k ∈ t.targets, k ∈ w.leaders := by
  obtain ⟨tcx, ret, htgt, hret, hst, hft, hrs⟩ :=
    (h.inv.closed _ ha).transfer i d (transferAt_mask.mpr ht)
  simp only at htgt hret hft
  have hctl := ht.2.1
  unfold RspInsn.controlIR
  cases hcls : i.cls
  case branch o =>
    have htcx : tcx = cx := by
      simp only [targetCtx, RspInsn.isCall, hcls] at htgt
      exact (congrArg Prod.snd htgt).symm
    refine ⟨_, rfl, ?_⟩
    intro k hk
    rcases List.mem_pair.mp hk with rfl | rfl
    · rw [← htcx]
      apply hst
      simp only [RspInsn.staticTargets, hcls, List.mem_singleton]
    · exact hft (by simp only [RspInsn.fallsThrough, hcls])
  case j =>
    have htcx : tcx = cx := by
      simp only [targetCtx, RspInsn.isCall, hcls] at htgt
      exact (congrArg Prod.snd htgt).symm
    refine ⟨_, rfl, ?_⟩
    intro k hk
    rw [List.mem_singleton.mp hk, ← htcx]
    apply hst
    simp only [RspInsn.staticTargets, hcls, List.mem_singleton]
  case jal =>
    have hpush : Contexts.Ids.pushCtx w.ctxs cx i.link = (w.ctxs, tcx) := by
      simpa only [targetCtx, RspInsn.isCall, hcls, decide_true, if_true] using htgt
    simp only [hpush]
    refine ⟨_, rfl, ?_⟩
    intro k hk
    rw [List.mem_singleton.mp hk]
    apply hst
    simp only [RspInsn.staticTargets, hcls, List.mem_singleton]
  case jr | jalr =>
    have hi : i.isIndirect := by simp [RspInsn.isIndirect, hcls]
    obtain ⟨cases, hc, hmem⟩ := indirectCases_targets h hi hret hrs
    simp only [hc, Option.map_some]
    exact ⟨_, rfl, hmem⟩
  all_goals
    simp only [RspInsn.isControl, hcls] at hctl
    cases hctl

def steps (a b : Word) : ℕ := (b.toNat + 0x1000 - (a &&& 0xffc).toNat) % 0x1000 / 4

theorem steps_next (a : Word) {b : Word} (hb : b &&& 0xffc = b) :
    (steps a b = 0 ↔ a &&& 0xffc = b) ∧ steps a b < 1024 ∧
      (steps ((a + 4) &&& 0xffc) b + 1 = steps a b ∨
        a &&& 0xffc = b ∧ steps ((a + 4) &&& 0xffc) b = 1023) := by
  have h1 := Word.toNat_and_ffc a
  have h2 := Word.toNat_and_ffc b
  rw [hb] at h2
  have h3 := Word.toNat_and_ffc (a + 4)
  have h4 : (a + 4).toNat = (a.toNat + 4) % 2 ^ 32 := BitVec.toNat_add a 4
  have ha := a.isLt
  have hbl := b.isLt
  have heq : a &&& 0xffc = b ↔ (a &&& 0xffc).toNat = b.toNat := BitVec.toNat_inj.symm
  rw [heq]
  simp only [steps, Word.and_ffc_idem]
  omega

open Classical in
noncomputable def turnsTo (imem : Image) (b a : Word) : ℕ :=
  if steps a b = 0 ∧ ∃ i, imem.StraightAt b i then 1024 else steps a b

theorem turnsTo_le (imem : Image) {b : Word} (hb : b &&& 0xffc = b) (a : Word) :
    turnsTo imem b a ≤ 1024 := by
  have hlt := (steps_next a hb).2.1
  unfold turnsTo
  split_ifs
  · exact le_rfl
  · omega

theorem turnsTo_next {a b : Word} (hb : b &&& 0xffc = b) {i : RspInsn} (hs : imem.StraightAt a i)
    (hnot : ∀ j, imem.StraightAt b j → (a + 4) &&& 0xffc ≠ b) :
    turnsTo imem b ((a + 4) &&& 0xffc) < turnsTo imem b a := by
  obtain ⟨hz, -, hstep⟩ := steps_next a hb
  obtain ⟨hz', hlt', -⟩ := steps_next ((a + 4) &&& 0xffc) hb
  rw [Word.and_ffc_idem] at hz'
  have hnext : turnsTo imem b ((a + 4) &&& 0xffc) = steps ((a + 4) &&& 0xffc) b := by
    apply if_neg
    rintro ⟨h0, j, hj⟩
    exact hnot j hj (hz'.mp h0)
  rw [hnext]
  unfold turnsTo
  split_ifs with hlap
  · exact hlt'
  · rcases hstep with hd | ⟨hab, -⟩
    · omega
    · -- `b` is `a`, which does not stop the emission
      have hsb : imem.StraightAt b i := hab ▸ straightAt_mask.mpr hs
      exact absurd ⟨hz.mpr hab, i, hsb⟩ hlap

/-- One turn of emission at a walked pair ends the block, or goes on to the next pair,
which is walked and no leader. -/
theorem Done.emitBody (h : Done imem w) {a : Word} (ha : (a &&& 0xffc, cx) ∈ w.walked)
    (body : List RspInsn) :
    (∃ t is, emitBody imem w cx (w.ctxs, a, body) = some (.inr (w.ctxs, ⟨body ++ is, t⟩)) ∧
      Emits imem w cx a is t ∧ ∀ k ∈ t.targets, k ∈ w.leaders) ∨
    ∃ i, imem.StraightAt a i ∧ ((a + 4) &&& 0xffc, cx) ∉ w.leaders ∧
      ((a + 4) &&& 0xffc, cx) ∈ w.walked ∧
      emitBody imem w cx (w.ctxs, a, body) = some (.inl (w.ctxs, (a + 4) &&& 0xffc, body ++ [i])) := by
  rcases imem.site a with hdata | ⟨i, hb⟩ | ⟨i, d, ht⟩ | ⟨i, hs⟩
  · refine .inl ⟨.interp a, [], ?_, .interp hdata, fun k hk => by cases hk⟩
    simp only [RspBt.emitBody, hdata, if_true, List.append_nil]
    cases imem.at a <;> rfl
  · refine .inl ⟨.halt, [], ?_, .halt hb, fun k hk => by cases hk⟩
    simp only [RspBt.emitBody, hb.1, hb.translatable, Image.isControl_of_isBreak hb.2, hb.2,
      List.append_nil]
    rfl
  · obtain ⟨t, hc, hmem⟩ := h.transfer ha ht
    refine .inl ⟨t, [], ?_, .control ht hc, hmem⟩
    simp only [RspBt.emitBody, ht.1, ht.translatable, ht.2.1, ht.2.2.1, hc, Option.map_some,
      List.append_nil]
    rfl
  · obtain ⟨hc, hb⟩ := Image.isControl_of_isStraight hs.2
    have hnext : ((a + 4) &&& 0xffc, cx) ∈ w.walked := by
      have hseen := (h.inv.closed _ ha).straight i (straightAt_mask.mpr hs)
      have hmask : ((a &&& 0xffc) + 4) &&& 0xffc = (a + 4) &&& 0xffc :=
        Word.and_ffc_add a 4 rfl
      rcases hseen with hw | hcur
      · rwa [hmask] at hw
      · cases hcur
    by_cases hl : ((a + 4) &&& 0xffc, cx) ∈ w.leaders
    · refine .inl ⟨.br ((a + 4) &&& 0xffc, cx), [i], ?_, .br hs hl, ?_⟩
      · simp only [RspBt.emitBody, hs.1, hs.translatable, hc, hb, if_pos hl]
        rfl
      · intro k hk
        rwa [List.mem_singleton.mp hk]
    · refine .inr ⟨i, hs, hl, hnext, ?_⟩
      simp only [RspBt.emitBody, hs.1, hs.translatable, hc, hb, if_neg hl]
      rfl

/-- The block of a leader ends: its run meets a leader, or the instruction that keeps its
context from being a ring of straight-line code. -/
theorem Done.emitLeader (h : Done imem w) {k : Key} (hk : k ∈ w.leaders) {n : ℕ} (hn : 1024 < n) :
    ∃ b, emitLeader imem n w w.ctxs k = some (w.ctxs, b) ∧ Emits imem w k.2 k.1 b.body b.term ∧
      ∀ t ∈ b.term.targets, t ∈ w.leaders := by
  obtain ⟨b, hb, hexit⟩ := h.inv.exits k.2
  have hstart : (k.1 &&& 0xffc, k.2) ∈ w.walked := by
    rcases h.inv.started k hk with hwork | hseen | hcur
    · rw [h.work] at hwork
      cases hwork
    · exact hseen
    · cases hcur
  have htotal : ∃ r, loop (RspBt.emitBody imem w k.2) n (w.ctxs, k.1, []) = some r ∧
      r.1 = w.ctxs ∧ Emits imem w k.2 k.1 r.2.body r.2.term ∧
      ∀ t ∈ r.2.term.targets, t ∈ w.leaders := by
    refine loop_total
      (fun st => st.1 = w.ctxs ∧ (st.2.1 &&& 0xffc, k.2) ∈ w.walked ∧
        ∀ is t, Emits imem w k.2 st.2.1 is t → Emits imem w k.2 k.1 (st.2.2 ++ is) t)
      _ (fun st => turnsTo imem b st.2.1) ?_ ⟨rfl, hstart, fun _ _ h => h⟩ ?_
    case refine_2 => exact lt_of_le_of_lt (turnsTo_le imem hb k.1) hn
    rintro ⟨c, a, body⟩ ⟨hc, ha, hcont⟩
    simp only at hc ha hcont
    subst hc
    rcases h.emitBody ha body with ⟨t, is, he, hem, htg⟩ | ⟨i, hs, hnl, hnext, he⟩
    · exact .inl ⟨_, he, rfl, hcont is t hem, htg⟩
    · -- a plain `b` is not walked or a leader, and the next pair is walked and none
      have hnot : ∀ j, imem.StraightAt b j → (a + 4) &&& 0xffc ≠ b := by
        intro j hj heq
        rw [heq] at hnl hnext
        rcases hexit with hw | hl | hno | hcur
        · exact hw hnext
        · exact hnl hl
        · exact hno j hj
        · cases hcur
      refine .inr ⟨_, he, ⟨rfl, by rwa [Word.and_ffc_idem], ?_⟩, ?_⟩
      · intro is t hem
        rw [List.append_assoc]
        exact hcont _ t (.next hs hem)
      · exact turnsTo_next hb hs hnot
  obtain ⟨⟨c, blk⟩, hloop, hc, hem, htg⟩ := htotal
  exact ⟨blk, by rw [RspBt.emitLeader, hloop, ← hc], hem, htg⟩

/-- Every leader is emitted, once, and no block names a context or an address that is none. -/
theorem Done.emitLeaders (h : Done imem w) {n : ℕ} (hn : 1024 < n) (ks : List Key)
    (hks : ∀ k ∈ ks, k ∈ w.leaders) :
    ∃ bs, emitLeaders imem n w ks w.ctxs = some (w.ctxs, bs) ∧ bs.map Prod.fst = ks ∧
      ∀ kb ∈ bs, Emits imem w kb.1.2 kb.1.1 kb.2.body kb.2.term ∧
        ∀ t ∈ kb.2.term.targets, t ∈ w.leaders := by
  induction ks with
  | nil => exact ⟨[], rfl, rfl, fun kb hkb => by cases hkb⟩
  | cons k ks ih =>
    obtain ⟨b, hb, hem⟩ := h.emitLeader (hks k (List.mem_cons_self ..)) hn
    obtain ⟨bs, hbs, hmap, hall⟩ := ih fun l hl => hks l (List.mem_cons_of_mem _ hl)
    refine ⟨(k, b) :: bs, ?_, ?_, ?_⟩
    · simp only [RspBt.emitLeaders, hb, hbs, Option.map_some]
    · rw [List.map_cons, hmap]
    · intro kb hkb
      rcases List.mem_cons.mp hkb with rfl | hkb
      · exact hem
      · exact hall kb hkb

end Walk

noncomputable def compileBound : ℕ := Walk.allKeys.card + Walk.allWords.card + 1025

/-- A translation is closed: each leader has one block, and every branch of a block, like
every case of the entry dispatch, goes to a leader. -/
structure Translation.Closed (T : Translation) : Prop where
  nodup : T.leaders.Nodup
  blocks : T.blocks.map Prod.fst = T.leaders
  targets : ∀ kb ∈ T.blocks, ∀ t ∈ kb.2.term.targets, t ∈ T.leaders
  roots : ∀ r ∈ T.roots, (r, 0) ∈ T.leaders

structure Translation.Compiled (T : Translation) (w : Walk) : Prop where
  done : Walk.Done T.imem w
  ctxs : T.ctxs = w.ctxs
  roots : T.roots = w.roots
  leaders : T.leaders = w.leaders
  blocks : T.blocks.map Prod.fst = w.leaders
  emits : ∀ kb ∈ T.blocks, Emits T.imem w kb.1.2 kb.1.1 kb.2.body kb.2.term ∧
    ∀ t ∈ kb.2.term.targets, t ∈ w.leaders

/-- Compilation ends, and dispatches on every root it was given that is code. -/
theorem compile_total (imem : Image) (roots : List Word) {n : ℕ} (hn : compileBound ≤ n) :
    ∃ T w, compile imem n roots = some T ∧ T.imem = imem ∧ T.Compiled w ∧
      ∀ r ∈ roots, imem.translatable r → r ∈ T.roots := by
  unfold compileBound at hn
  obtain ⟨w, hw, hdone, hgrown⟩ := Walk.rounds_total imem roots (by omega : _ < n)
  obtain ⟨bs, hbs, hmap, hall⟩ := hdone.erase.emitLeaders (by omega : 1024 < n) _ fun k hk => hk
  refine ⟨⟨imem, w.ctxs, (Walk.eraseRoots imem w).roots, w.leaders, bs⟩, Walk.eraseRoots imem w,
    ?_, rfl, ⟨hdone.erase, rfl, rfl, rfl, hmap, hall⟩,
    fun r hr htr => List.mem_filter.mpr ⟨hgrown.roots r hr, htr⟩⟩
  rw [compile, Walk.walk, hw]
  simp only [Option.map_some, hbs]
  rfl

/-- The walk of every image from every root set ends, no pop misses, and what is emitted is
closed under its branches. -/
theorem compile_closed (imem : Image) (roots : List Word) :
    ∃ N, ∀ n, N ≤ n → ∃ T, compile imem n roots = some T ∧ T.Closed := by
  refine ⟨compileBound, fun n hn => ?_⟩
  obtain ⟨T, w, hT, -, hc, -⟩ := compile_total imem roots hn
  refine ⟨T, hT, ?_, ?_, ?_, ?_⟩
  · rw [hc.leaders]
    exact hc.done.inv.nodup
  · rw [hc.leaders]
    exact hc.blocks
  · intro kb hkb t ht
    rw [hc.leaders]
    exact (hc.emits kb hkb).2 t ht
  · intro r hr
    rw [hc.leaders]
    exact hc.done.led r (hc.roots ▸ hr)

end RspBt
