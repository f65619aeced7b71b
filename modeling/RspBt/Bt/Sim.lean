import RspBt.Bt.Step

namespace RspBt

open Lib

namespace RspT

/-- Translated code does not count its instructions: `n` counted no more than `n'`. -/
def Lags (n n' : BitVec 64) : Prop := n + 1 ≤ n' + 1

theorem Lags.refl (n : BitVec 64) : Lags n n := BitVec.le_refl _

theorem Lags.ahead {n n' : BitVec 64} (h : Lags n n') (hn : InBudget n') : Lags n (n' + 1) := by
  unfold Lags at h ⊢
  have hn := BitVec.not_lt.mp hn
  rw [BitVec.le_def] at h hn ⊢
  rw [BitVec.toNat_add (n' + 1)]
  have hb : ((1 <<< 40 : ℕ) : BitVec 64).toNat = 2 ^ 40 := rfl
  have h1 : (1 : BitVec 64).toNat = 1 := rfl
  omega

theorem Lags.both {n n' : BitVec 64} (h : Lags n n') (hn : InBudget n') :
    InBudget n ∧ Lags (n + 1) (n' + 1) := by
  unfold Lags at h ⊢
  unfold InBudget at hn ⊢
  have hn := BitVec.not_lt.mp hn
  refine ⟨BitVec.not_lt.mpr (BitVec.le_trans h hn), ?_⟩
  rw [BitVec.le_def] at h hn ⊢
  rw [BitVec.toNat_add (n' + 1), BitVec.toNat_add (n + 1)]
  have hb : ((1 <<< 40 : ℕ) : BitVec 64).toNat = 2 ^ 40 := rfl
  have h1 : (1 : BitVec 64).toNat = 1 := rfl
  omega

/-- From `st` the interpreter ends in `c'` within `m` turns, and none of its turns loads
instruction memory. -/
structure Ends (g : BitVec 64) (m : ℕ) (st : RspT × Word) (c' : RspT) : Prop where
  run : loop turn m st = some c'
  quiet : ∀ st', Turns turn st st' → st'.1.core.imemGen = g

variable {g : BitVec 64} {m : ℕ} {s : Rsp} {pc nextPc : Word} {n : BitVec 64} {c' : RspT}

theorem Ends.gen (h : Ends g m (cfg s pc nextPc n) c') : s.imemGen = g := h.quiet _ (.refl _ _)

theorem Ends.turn (h : Ends g m (cfg s pc nextPc n) c') :
    ∃ k fl, m = k + 1 ∧ InBudget n ∧ s.switch nextPc (fetch s.imem pc) = some fl ∧
      Ends g k ({ core := fl.s.zeroR0, pc := nextPc, halted := fl.halted, nInsns := n + 1 },
        fl.after) c' := by
  obtain ⟨k, fl, rfl, hn, hsw, hl⟩ := loop_cfg h.run
  exact ⟨k, fl, rfl, hn, hsw, hl, fun st' hst' => h.quiet st' (.head (turn_of_switch hsw hn) hst')⟩

theorem loop_halted {c : RspT} {x : Word} (hh : c.halted) (h : loop RspT.turn m (c, x) = some c') :
    c' = c ∧ 0 < m := by
  obtain ⟨k, rfl, ht⟩ := loop_cases h
  simp only [RspT.turn, hh, if_true] at ht
  rcases ht with ht | ⟨st, ht, -⟩
  · exact ⟨(Sum.inr.inj (Option.some.inj ht)).symm, by omega⟩
  · cases ht

/-- A smaller count changes neither where a run ends nor the machine it ends with. -/
theorem Ends.of_lags (h : Ends g m (cfg s pc nextPc n) c') {l : BitVec 64} (hl : Lags l n) :
    ∃ d, loop RspT.turn m (cfg s pc nextPc l) = some d ∧ d.core = c'.core := by
  induction m generalizing s pc nextPc n l with
  | zero => cases h.run
  | succ m ih =>
    obtain ⟨k, fl, hk, hn, hsw, he⟩ := h.turn
    obtain rfl : m = k := by omega
    obtain ⟨hln, hl'⟩ := hl.both hn
    rw [loop_next (turn_of_switch hsw hln)]
    cases hh : fl.halted with
    | false =>
      rw [hh] at he
      exact ih he hl'
    | true =>
      rw [hh] at he
      obtain ⟨rfl, hm⟩ := loop_halted rfl he.run
      obtain ⟨j, rfl⟩ : ∃ j, m = j + 1 := ⟨m - 1, by omega⟩
      exact ⟨{ core := fl.s.zeroR0, pc := nextPc, halted := true, nInsns := l + 1 },
        loop_done rfl j, rfl⟩

end RspT

structure Frame.Live (imem : Image) (f : Frame) : Prop where
  r0 : f.c.r 0 = 0
  imem : f.spill.imem = imem

theorem Frame.Live.setGPR {imem : Image} {f : Frame} (h : f.Live imem) (i : BitVec 5) (x : Word) :
    (f.setGPR i x).Live imem := by
  unfold Frame.setGPR
  split_ifs
  · exact h
  · exact ⟨h.r0, h.imem⟩

theorem Frame.Live.storeLink {imem : Image} {f : Frame} (h : f.Live imem) (i : RspInsn) :
    (i.storeLink f).Live imem := by
  unfold RspInsn.storeLink
  split
  · exact h.setGPR _ _
  · exact h.setGPR _ _
  · exact h

theorem fetch_mask (img : Image) (a : Word) : fetch img (a &&& 0xffc) = fetch img a := by
  rw [fetch, fetch, Word.and_ffc_idem]

theorem Image.decode_of_at {imem : Image} {a : Word} {i : RspInsn} (h : imem.at a = some i) :
    RspInsn.decode (fetch imem a) (a &&& 0xffc) = some i := by
  rwa [Image.at, fetch_mask] at h

namespace RspT

variable {imem : Image} {g : BitVec 64} {m : ℕ} {f : Frame} {a nextPc : Word} {n : BitVec 64}
  {c' : RspT}

/-- At a plain instruction both engines move on to `next_pc` with the same machine. -/
theorem Ends.straight {i : RspInsn} (hs : imem.StraightAt a i) (hf : f.Live imem)
    (h : Ends g m (cfg f.spill a nextPc n) c') :
    ∃ f' k, i.generateIR f = .cont f' ∧ f'.Live imem ∧ m = k + 1 ∧ InBudget n ∧
      Ends g k (cfg f'.spill nextPc ((nextPc + 4) &&& 0xffc) (n + 1)) c' := by
  have hd := Image.decode_of_at hs.1
  obtain ⟨k, fl, hk, hn, hsw, he⟩ := h.turn
  rw [hf.imem, RspInsn.switch_of_straight hd hs.2] at hsw
  obtain ⟨s', hst, rfl⟩ := Option.map_eq_some_iff.mp hsw
  have hg : s'.imemGen = f.spill.imemGen := he.gen.trans h.gen.symm
  obtain ⟨f', hir, hsp, hr0, him⟩ := RspInsn.cont_of_straight hd hs.2 hf.r0 hst hg
  refine ⟨f', k, hir, ⟨hr0, him.trans hf.imem⟩, hk, hn, ?_⟩
  rw [hsp]
  exact he

/-- A transfer and its slot are two turns, and lead to the successor. -/
theorem Ends.transfer {i d : RspInsn} (ht : imem.TransferAt a i d) (hf : f.Live imem)
    (h : Ends g m (cfg f.spill a ((a + 4) &&& 0xffc) n) c') :
    ∃ f' k l, d.generateIR (i.storeLink f) = .cont f' ∧ f'.Live imem ∧ k < m ∧
      (∀ l₀, Lags l₀ n → Lags l₀ l) ∧
      Ends g k (cfg f'.spill (i.successor f) ((i.successor f + 4) &&& 0xffc) l) c' := by
  obtain ⟨hi, hc, hd, hs⟩ := ht
  have hdec := Image.decode_of_at hi
  have hnext : ((a &&& 0xffc) + 4) &&& 0xffc = (a + 4) &&& 0xffc := Word.and_ffc_add a 4 rfl
  obtain ⟨k, fl, hk, hn, hsw, he⟩ := h.turn
  obtain ⟨s', hsw', hlink⟩ := RspInsn.switch_of_transfer hdec hc hf.r0
  rw [hf.imem, ← hnext, hsw'] at hsw
  obtain rfl := Option.some.inj hsw
  rw [hlink] at he
  have hslot : imem.StraightAt ((a + 4) &&& 0xffc) d := Walk.straightAt_mask.mpr ⟨hd, hs⟩
  obtain ⟨f', j, hir, hf', hj, hn', he'⟩ := Ends.straight hslot (hf.storeLink i) he
  refine ⟨f', j, n + 1 + 1, hir, hf', by omega, ?_, he'⟩
  intro l₀ hl
  exact (hl.ahead hn).ahead hn'

theorem Ends.break_ {i : RspInsn} (hb : imem.BreakAt a i) (hf : f.Live imem)
    (h : Ends g m (cfg f.spill a nextPc n) c') : c'.core = f.spill := by
  obtain ⟨cls, hcls, rfl⟩ := Option.map_eq_some_iff.mp (Image.decode_of_at hb.1)
  obtain rfl : cls = .break_ := by simpa only [RspInsn.isBreak, decide_eq_true_eq] using hb.2
  obtain ⟨k, fl, hk, hn, hsw, he⟩ := h.turn
  rw [hf.imem, RspInsn.switch_of_break hcls] at hsw
  obtain rfl := Option.some.inj hsw
  obtain ⟨rfl, -⟩ := loop_halted rfl he.run
  exact Frame.spill_zeroR0 hf.r0

end RspT

/-- From `a`, with the machine `f` spills, the interpreter still ends in `c'` within `m` turns. -/
structure Resumes (imem : Image) (g n : BitVec 64) (c' : RspT) (m : ℕ) (a : Word) (f : Frame) :
    Prop where
  masked : a &&& 0xffc = a
  live : f.Live imem
  ends : ∃ l, RspT.Lags n l ∧ RspT.Ends g m (RspT.cfg f.spill a ((a + 4) &&& 0xffc) l) c'

/-- A block that simulates takes one of its own edges and gets on, or leaves where the
interpreter is. -/
def Out.Follows (imem : Image) (g n : BitVec 64) (c' : RspT) (m : ℕ) (keys : List Key) : Out → Prop
  | .goto k f => k ∈ keys ∧ ∃ m' < m, Resumes imem g n c' m' k.1 f
  | .ret pc f => ∃ m' ≤ m, Resumes imem g n c' m' pc f
  | .halt f => f.spill = c'.core
  | .die => False

theorem Out.Follows.mono {imem : Image} {g n : BitVec 64} {c' : RspT} {m m' : ℕ} {keys : List Key}
    {o : Out} (h : o.Follows imem g n c' m keys) (hm : m ≤ m') : o.Follows imem g n c' m' keys := by
  cases o with
  | goto k f =>
    obtain ⟨hk, j, hj, hres⟩ := h
    exact ⟨hk, j, by omega, hres⟩
  | ret pc f =>
    obtain ⟨j, hj, hres⟩ := h
    exact ⟨j, by omega, hres⟩
  | halt | die => exact h

namespace RspInsn

theorem successor_mask (i : RspInsn) (f : Frame) : i.successor f &&& 0xffc = i.successor f := by
  have htAddr : i.tAddr &&& 0xffc = i.tAddr := by
    unfold tAddr
    split <;> exact Word.and_ffc_idem _
  unfold successor
  split
  · split_ifs
    · exact htAddr
    · exact Word.and_ffc_idem _
  · exact Word.and_ffc_idem _
  · exact Word.and_ffc_idem _
  · exact htAddr

end RspInsn

theorem indirectCases_lookup {c : Contexts} {roots : List Word} {cx : ℕ}
    {cases : List (Word × Key)} (h : indirectCases c roots cx = some cases) {target : Word} {k : Key}
    (hk : cases.lookup target = some k) : k.1 = target ∧ k ∈ cases.map Prod.snd := by
  have hmem : (target, k) ∈ cases := by
    obtain ⟨l₁, l₂, rfl, -⟩ := List.lookup_eq_some_iff.mp hk
    exact List.mem_append_right _ (List.mem_cons_self ..)
  refine ⟨?_, List.mem_map.mpr ⟨_, hmem, rfl⟩⟩
  unfold indirectCases at h
  split_ifs at h with hcx
  · split at h
    · obtain rfl := Option.some.inj h
      obtain ⟨rfl, rfl⟩ := Prod.mk.inj (List.mem_singleton.mp hmem)
      rfl
    · cases h
  · obtain rfl := Option.some.inj h
    obtain ⟨r, -, hr⟩ := List.mem_map.mp hmem
    obtain ⟨rfl, rfl⟩ := Prod.mk.inj hr
    rfl

/-- Whatever its kind, a transfer's terminator stores the link, runs the slot, and goes to the
successor: by an edge, or by leaving. -/
theorem Term.exec_control {i d : RspInsn} {c c₁ : Contexts} {roots : List Word} {cx : ℕ} {t : Term}
    (h : i.controlIR d c roots cx = some (c₁, t)) (f : Frame) :
    (∃ k ∈ t.targets, k.1 = i.successor f ∧
      t.exec f = d.andThen (i.storeLink f) fun f' => .goto k f') ∨
    t.exec f = d.andThen (i.storeLink f) fun f' => .ret (i.successor f) f' := by
  unfold RspInsn.controlIR at h
  cases hcls : i.cls <;> simp only [hcls] at h
  case branch o =>
    obtain ⟨rfl, rfl⟩ := Prod.mk.inj (Option.some.inj h)
    refine .inl ⟨if i.condition f then (i.tAddr, cx) else (i.link, cx), ?_, ?_, ?_⟩
    · rw [Term.targets]
      split_ifs
      · exact List.mem_cons_self ..
      · exact List.mem_cons_of_mem _ (List.mem_singleton_self _)
    · simp only [RspInsn.successor, hcls]
      split_ifs <;> rfl
    · simp only [Term.exec, RspInsn.storeLink, hcls]
  case j =>
    obtain ⟨rfl, rfl⟩ := Prod.mk.inj (Option.some.inj h)
    refine .inl ⟨(i.tAddr, cx), List.mem_singleton_self _, ?_, rfl⟩
    simp only [RspInsn.successor, hcls]
  case jal =>
    obtain ⟨rfl, rfl⟩ := Prod.mk.inj (Option.some.inj h)
    refine .inl ⟨_, List.mem_singleton_self _, ?_, rfl⟩
    simp only [RspInsn.successor, hcls]
  case jr | jalr =>
    obtain ⟨cases, hcases, ht⟩ := Option.map_eq_some_iff.mp h
    obtain ⟨rfl, rfl⟩ := Prod.mk.inj ht
    have hsucc : i.successor f = f.getGPR i.inst.rs &&& 0xffc := by
      simp only [RspInsn.successor, hcls]
    simp only [Term.exec, hsucc]
    -- a target among the cases is an edge, any other leaves
    cases hk : cases.lookup (f.getGPR i.inst.rs &&& 0xffc) with
    | none => exact .inr rfl
    | some k =>
      obtain ⟨hk1, hmem⟩ := indirectCases_lookup hcases hk
      exact .inl ⟨k, hmem, hk1, rfl⟩
  all_goals cases h

section Blocks

variable {imem : Image} {w : Walk} {cx : ℕ} {g n : BitVec 64} {c' : RspT}

/-- Induction over the emitted block: each plain instruction is one turn, and the terminator
is what the interpreter does where the block ends. -/
theorem Emits.follows {a : Word} {is : List RspInsn} {t : Term} (he : Emits imem w cx a is t)
    {m : ℕ} {f : Frame} (h : Resumes imem g n c' m a f) :
    (execBody is t f).Follows imem g n c' m t.targets := by
  induction he generalizing m f with
  | interp => exact ⟨m, le_rfl, h⟩
  | halt hb =>
    obtain ⟨l, -, hends⟩ := h.ends
    exact (hends.break_ hb h.live).symm
  | control ht hc =>
    rename_i a i d t
    obtain ⟨l, hl, hends⟩ := h.ends
    -- two turns of the interpreter, for the transfer and its slot
    obtain ⟨f', k, l', hir, hlive, hk, hlag, hends'⟩ := hends.transfer ht h.live
    have hres : Resumes imem g n c' k (i.successor f) f' :=
      ⟨i.successor_mask f, hlive, l', hlag n hl, hends'⟩
    rw [execBody]
    rcases Term.exec_control hc f with ⟨key, hmem, hkey, hx⟩ | hx
    · rw [hx, RspInsn.andThen, hir]
      exact ⟨hmem, k, hk, hkey ▸ hres⟩
    · rw [hx, RspInsn.andThen, hir]
      exact ⟨k, hk.le, hres⟩
  | br hs hl =>
    obtain ⟨l, hlag, hends⟩ := h.ends
    obtain ⟨f', k, hir, hlive, hk, hn, hends'⟩ := hends.straight hs h.live
    rw [execBody, RspInsn.andThen, hir]
    refine ⟨List.mem_singleton_self _, k, by omega, Word.and_ffc_idem _, hlive, l + 1,
      hlag.ahead hn, hends'⟩
  | next hs _ ih =>
    obtain ⟨l, hlag, hends⟩ := h.ends
    obtain ⟨f', k, hir, hlive, hk, hn, hends'⟩ := hends.straight hs h.live
    rw [execBody, RspInsn.andThen, hir]
    have hf := ih ⟨Word.and_ffc_idem _, hlive, l + 1, hlag.ahead hn, hends'⟩
    exact hf.mono (by omega)

def Translation.Ret.Follows (imem : Image) (g n : BitVec 64) (c' : RspT) (m : ℕ)
    (r : Translation.Ret) : Prop :=
  (r.next = haltedPc ∧ r.core = c'.core) ∨
    ∃ m' f, m' ≤ m ∧ r.core = f.spill ∧ Resumes imem g n c' m' r.next f

theorem Translation.Compiled.lookup {T : Translation} (h : T.Compiled w) {k : Key}
    (hk : k ∈ w.leaders) : ∃ b, T.blocks.lookup k = some b ∧
      Emits T.imem w k.2 k.1 b.body b.term ∧ ∀ t ∈ b.term.targets, t ∈ w.leaders := by
  obtain ⟨b, hb⟩ : ∃ b, T.blocks.lookup k = some b := by
    rw [← h.blocks] at hk
    obtain ⟨kb, hmem, rfl⟩ := List.mem_map.mp hk
    rw [← Option.isSome_iff_exists, List.lookup_isSome_iff]
    exact ⟨kb, hmem, beq_self_eq_true _⟩
  obtain ⟨l₁, l₂, hbs, -⟩ := List.lookup_eq_some_iff.mp hb
  have hmem : (k, b) ∈ T.blocks := by
    rw [hbs]
    exact List.mem_append_right _ (List.mem_cons_self ..)
  exact ⟨b, hb, h.emits _ hmem⟩

/-- Entered at a leader where the interpreter is, the function returns, and follows it. -/
theorem Translation.Compiled.loop_follows {T : Translation} (h : T.Compiled w) {m : ℕ} {k : Key}
    {f : Frame} (hk : k ∈ w.leaders) (hres : Resumes T.imem g n c' m k.1 f) {fuel : ℕ}
    (hfuel : m < fuel) : ∃ r, loop T.body fuel (k, f) = some r ∧ r.Follows T.imem g n c' m := by
  refine loop_ranked (fun j st => j ≤ m ∧ st.1 ∈ w.leaders ∧ Resumes T.imem g n c' j st.1.1 st.2)
    _ ?_ ⟨le_rfl, hk, hres⟩ hfuel
  rintro j ⟨k, f⟩ ⟨hj, hk, hres⟩
  obtain ⟨b, hb, hem, htg⟩ := h.lookup hk
  have hfol := hem.follows hres
  simp only [Translation.body, hb, Block.exec]
  cases hx : execBody b.body b.term f with
  | goto k' f' =>
    rw [hx] at hfol
    obtain ⟨hmem, m', hlt, hres'⟩ := hfol
    exact .inr ⟨_, m', hlt, rfl, by omega, htg k' hmem, hres'⟩
  | ret pc f' =>
    rw [hx] at hfol
    obtain ⟨m', hle, hres'⟩ := hfol
    exact .inl ⟨_, rfl, .inr ⟨m', f', by omega, rfl, hres'⟩⟩
  | halt f' =>
    rw [hx] at hfol
    exact .inl ⟨_, rfl, .inl ⟨rfl, hfol⟩⟩
  | die =>
    rw [hx] at hfol
    exact hfol.elim

/-- `img.fn` on the object the interpreter is in: through the dispatch, or straight back. -/
theorem Translation.Compiled.fn_follows {T : Translation} (h : T.Compiled w) {m : ℕ} {c : Rsp}
    {cur : Word} (hres : Resumes T.imem g n c' m (cur &&& 0xffc) (Frame.enter c)) {fuel : ℕ}
    (hfuel : m < fuel) : ∃ r, T.fn fuel c cur = some r ∧ r.Follows T.imem g n c' m := by
  simp only [Translation.fn]
  cases hk : (T.roots.map fun r => (r, ((r, 0) : Key))).lookup (cur &&& 0xffc) with
  | none => exact ⟨_, rfl, .inr ⟨m, Frame.enter c, le_rfl, rfl, hres⟩⟩
  | some k =>
    have hcases : indirectCases T.ctxs T.roots 0 = some (T.roots.map fun r => (r, (r, 0))) := rfl
    obtain ⟨hk1, hmem⟩ := indirectCases_lookup hcases hk
    have hlead : k ∈ w.leaders := by
      obtain ⟨x, hx, rfl⟩ := List.mem_map.mp hmem
      obtain ⟨r, hr, rfl⟩ := List.mem_map.mp hx
      exact h.done.led r (h.roots ▸ hr)
    exact h.loop_follows hlead (hk1 ▸ hres) hfuel

end Blocks

end RspBt
