import RspBt.Bt.Overlay

namespace RspBt

open Lib

namespace RspT

/-- Along the interpreter's turns from `st`, instruction memory is one of `S`, and a turn that
loads it goes on at the next word. -/
structure Tame (S : Set Image) (st : RspT × Word) : Prop where
  images : ∀ st', Turns turn st st' → st'.1.core.imem ∈ S
  inSequence : ∀ st' st'', Turns turn st st' → turn st' = some (.inl st'') →
    st''.1.core.imemGen ≠ st'.1.core.imemGen → st'.2 = (st'.1.pc + 4) &&& 0xffc

structure Plays (S : Set Image) (m : ℕ) (st : RspT × Word) (c' : RspT) : Prop where
  run : loop turn m st = some c'
  tame : Tame S st

variable {S : Set Image} {m : ℕ} {s : Rsp} {pc nextPc : Word} {n : BitVec 64} {c' : RspT}

theorem Tame.next {st st' : RspT × Word} (h : Tame S st) (ht : turn st = some (.inl st')) :
    Tame S st' where
  images st'' hst := h.images st'' (.head ht hst)
  inSequence st₁ st₂ hst := h.inSequence st₁ st₂ (.head ht hst)

theorem Plays.image (h : Plays S m (cfg s pc nextPc n) c') : s.imem ∈ S := h.tame.images _ (.refl _ _)

theorem Plays.turn (h : Plays S m (cfg s pc nextPc n) c') :
    ∃ k fl, m = k + 1 ∧ InBudget n ∧ s.switch nextPc (fetch s.imem pc) = some fl ∧
      (fl.s.imemGen ≠ s.imemGen → nextPc = (pc + 4) &&& 0xffc) ∧
      Plays S k ({ core := fl.s.zeroR0, pc := nextPc, halted := fl.halted, nInsns := n + 1 },
        fl.after) c' := by
  obtain ⟨k, fl, rfl, hn, hsw, hl⟩ := loop_cfg h.run
  have ht := turn_of_switch hsw hn
  exact ⟨k, fl, rfl, hn, hsw, fun hg => h.tame.inSequence _ _ (.refl _ _) ht hg, hl, h.tame.next ht⟩

theorem loop_of_lags (h : loop RspT.turn m (cfg s pc nextPc n) = some c') {l : BitVec 64}
    (hl : Lags l n) : ∃ d, loop RspT.turn m (cfg s pc nextPc l) = some d ∧ d.core = c'.core ∧
      Lags d.nInsns c'.nInsns := by
  induction m generalizing s pc nextPc n l with
  | zero => cases h
  | succ m ih =>
    obtain ⟨k, fl, hk, hn, hsw, he⟩ := loop_cfg h
    obtain rfl : m = k := by omega
    obtain ⟨hln, hl'⟩ := hl.both hn
    rw [loop_next (turn_of_switch hsw hln)]
    cases hh : fl.halted with
    | false =>
      rw [hh] at he
      exact ih he hl'
    | true =>
      rw [hh] at he
      obtain ⟨rfl, hm⟩ := loop_halted rfl he
      obtain ⟨j, rfl⟩ : ∃ j, m = j + 1 := ⟨m - 1, by omega⟩
      exact ⟨{ core := fl.s.zeroR0, pc := nextPc, halted := true, nInsns := l + 1 },
        loop_done rfl j, rfl, hl'⟩

end RspT

namespace RspInsn

theorem cls_of_mtc0 {w addr : Word} {i : RspInsn} (hd : decode w addr = some i) (hop : w.op = 0x10)
    (hrs : w.rs = 4) : i.cls = .mtc0 := by
  obtain ⟨cls, hcls, rfl⟩ := Option.map_eq_some_iff.mp hd
  have hrs0 : ¬ w.rs = 0 := by
    rw [hrs]
    decide
  unfold decodeClass at hcls
  rw [hop] at hcls
  exact Option.some.inj (hcls.symm.trans ((if_neg hrs0).trans (if_pos hrs)))

/-- An `mtc0` goes on in its block only where it left the generation alone. -/
theorem imemGen_of_mtc0_cont {i : RspInsn} (hi : i.cls = .mtc0) {f f' : Frame}
    (h : i.generateIR f = .cont f') : f'.spill.imemGen = f.spill.imemGen := by
  simp only [generateIR, hi, Frame.mtc0IR, Frame.rspbtMtc0] at h
  cases hm : f.c.mtc0 i.inst.rd (f.getGPR i.inst.rt) with
  | none =>
    rw [hm] at h
    cases h
  | some c =>
    simp only [hm, Option.map_some] at h
    split_ifs at h with hch
    obtain rfl := IrOut.cont.inj h
    exact of_not_not fun hne => hch (bne_iff_ne.mpr hne)

/-- Where the interpreter completes a plain instruction, the IR has the same machine: it goes on
in the block where the image is as it was, and leaves for the next word where it is not. -/
theorem generateIR_of_straight {w addr : Word} {i : RspInsn} (hd : decode w addr = some i)
    (hs : i.isStraight) {f : Frame} (h0 : f.c.r 0 = 0) {s' : Rsp}
    (hst : f.spill.straight w = some s') :
    ∃ f', f'.spill = s'.zeroR0 ∧ f'.c.r 0 = 0 ∧
      ((i.generateIR f = .cont f' ∧ f'.spill.imemGen = f.spill.imemGen ∧
          f'.spill.imem = f.spill.imem) ∨
        (i.generateIR f = .exit ((i.addr + 4) &&& 0xffc) f' ∧
          f'.spill.imemGen ≠ f.spill.imemGen)) := by
  by_cases hg : s'.imemGen = f.spill.imemGen
  · obtain ⟨f', hir, hsp, hr0, him⟩ := cont_of_straight hd hs h0 hst hg
    refine ⟨f', hsp, hr0, .inl ⟨hir, ?_, him⟩⟩
    rw [hsp]
    exact hg
  · have hspill := spill_generateIR hd hs h0
    rw [hst, Option.map_some] at hspill
    have hzero {f' : Frame} (heq : f'.spill = s'.zeroR0) : f'.c.r 0 = 0 := by
      rw [← Frame.spill_r_zero, heq]
      simp only [Rsp.zeroR0, Rsp.setR, Function.update_self]
    cases hir : i.generateIR f with
    | die =>
      rw [hir] at hspill
      cases hspill
    | exit pc f' =>
      rw [hir] at hspill
      have heq : f'.spill = s'.zeroR0 := Option.some.inj hspill
      obtain ⟨-, rfl, hne⟩ := exit_of_generateIR hir
      exact ⟨f', heq, hzero heq, .inr ⟨rfl, hne⟩⟩
    | cont f' =>
      rw [hir] at hspill
      have heq : f'.spill = s'.zeroR0 := Option.some.inj hspill
      -- only a COP0 write counts, and it does not go on
      rcases (Rsp.effect_straight hst).keepsImem with ⟨-, hkeep⟩ | ⟨hop, hrs, -⟩
      · exact absurd hkeep hg
      · have hsame := imemGen_of_mtc0_cont (cls_of_mtc0 hd hop hrs) hir
        rw [heq] at hsame
        exact absurd hsame hg

end RspInsn

namespace RspT

variable {S : Set Image} {imem : Image} {m : ℕ} {f : Frame} {a nextPc : Word} {n : BitVec 64}
  {c' : RspT}

/-- A plain instruction is one turn.  Where it loads an image the IR leaves, for `next_pc`. -/
theorem Plays.straight {i : RspInsn} (hs : imem.StraightAt a i) (hf : f.Live imem)
    (h : Plays S m (cfg f.spill a nextPc n) c') :
    ∃ f' k, m = k + 1 ∧ InBudget n ∧ f'.c.r 0 = 0 ∧
      Plays S k (cfg f'.spill nextPc ((nextPc + 4) &&& 0xffc) (n + 1)) c' ∧
      ((i.generateIR f = .cont f' ∧ f'.Live imem ∧ f'.spill.imemGen = f.spill.imemGen) ∨
        (i.generateIR f = .exit nextPc f' ∧ f'.spill.imemGen ≠ f.spill.imemGen)) := by
  have hd := Image.decode_of_at hs.1
  obtain ⟨k, fl, hk, hn, hsw, hseq, hp⟩ := h.turn
  rw [hf.imem, RspInsn.switch_of_straight hd hs.2] at hsw
  obtain ⟨s', hst, rfl⟩ := Option.map_eq_some_iff.mp hsw
  obtain ⟨f', hsp, hr0, hir⟩ := RspInsn.generateIR_of_straight hd hs.2 hf.r0 hst
  refine ⟨f', k, hk, hn, hr0, ?_, ?_⟩
  · rw [hsp]
    exact hp
  · rcases hir with ⟨hcont, hg, him⟩ | ⟨hexit, hg⟩
    · exact .inl ⟨hcont, ⟨hr0, him.trans hf.imem⟩, hg⟩
    · have hne : s'.imemGen ≠ f.spill.imemGen := by
        rw [hsp] at hg
        exact hg
      have hnext := hseq hne
      rw [Image.at_addr hs.1, Word.and_ffc_add a 4 rfl, ← hnext] at hexit
      exact .inr ⟨hexit, hg⟩

theorem imemGen_storeLink (i : RspInsn) (f : Frame) :
    (i.storeLink f).spill.imemGen = f.spill.imemGen := by
  have hset (r : BitVec 5) (x : Word) : (f.setGPR r x).spill.imemGen = f.spill.imemGen := by
    unfold Frame.setGPR
    split_ifs <;> rfl
  unfold RspInsn.storeLink
  split
  · exact hset 31 i.link
  · exact hset i.inst.rd i.link
  · rfl

/-- A transfer and its slot are two turns, and lead to the successor; so does the exit, where
the slot loads an image. -/
theorem Plays.transfer {i d : RspInsn} (ht : imem.TransferAt a i d) (hf : f.Live imem)
    (h : Plays S m (cfg f.spill a ((a + 4) &&& 0xffc) n) c') :
    ∃ f' k l, k < m ∧ (∀ l₀, Lags l₀ n → Lags l₀ l) ∧ f'.c.r 0 = 0 ∧
      Plays S k (cfg f'.spill (i.successor f) ((i.successor f + 4) &&& 0xffc) l) c' ∧
      ((d.generateIR (i.storeLink f) = .cont f' ∧ f'.Live imem ∧
          f'.spill.imemGen = f.spill.imemGen) ∨
        (d.generateIR (i.storeLink f) = .exit (i.successor f) f' ∧
          f'.spill.imemGen ≠ f.spill.imemGen)) := by
  obtain ⟨hi, hc, hd, hs⟩ := ht
  have hdec := Image.decode_of_at hi
  have hnext : ((a &&& 0xffc) + 4) &&& 0xffc = (a + 4) &&& 0xffc := Word.and_ffc_add a 4 rfl
  obtain ⟨k, fl, hk, hn, hsw, -, hp⟩ := h.turn
  obtain ⟨s', hsw', hlink⟩ := RspInsn.switch_of_transfer hdec hc hf.r0
  rw [hf.imem, ← hnext, hsw'] at hsw
  obtain rfl := Option.some.inj hsw
  rw [hlink] at hp
  have hslot : imem.StraightAt ((a + 4) &&& 0xffc) d := Walk.straightAt_mask.mpr ⟨hd, hs⟩
  obtain ⟨f', j, hj, hn', hr0, hp', hir⟩ := Plays.straight hslot (hf.storeLink i) hp
  rw [imemGen_storeLink] at hir
  exact ⟨f', j, n + 1 + 1, by omega, fun l₀ hl => (hl.ahead hn).ahead hn', hr0, hp', hir⟩

theorem Plays.break_ {i : RspInsn} (hb : imem.BreakAt a i) (hf : f.Live imem)
    (h : Plays S m (cfg f.spill a nextPc n) c') :
    c'.core = f.spill ∧ ∀ l, Lags l n → Lags l c'.nInsns := by
  obtain ⟨cls, hcls, rfl⟩ := Option.map_eq_some_iff.mp (Image.decode_of_at hb.1)
  obtain rfl : cls = .break_ := by simpa only [RspInsn.isBreak, decide_eq_true_eq] using hb.2
  obtain ⟨k, fl, hk, hn, hsw, -, hp⟩ := h.turn
  rw [hf.imem, RspInsn.switch_of_break hcls] at hsw
  obtain rfl := Option.some.inj hsw
  obtain ⟨rfl, -⟩ := loop_halted rfl hp.run
  exact ⟨Frame.spill_zeroR0 hf.r0, fun l hl => hl.ahead hn⟩

end RspT

/-- From `a`, with the machine `f` spills, the interpreter still ends in `c'` within `m` turns. -/
structure Awaits (S : Set Image) (n : BitVec 64) (c' : RspT) (m : ℕ) (a : Word) (f : Frame) :
    Prop where
  masked : a &&& 0xffc = a
  r0 : f.c.r 0 = 0
  plays : ∃ l, RspT.Lags n l ∧ RspT.Plays S m (RspT.cfg f.spill a ((a + 4) &&& 0xffc) l) c'

/-- A block takes one of its own edges with the image as it was, or leaves where the interpreter
is, with the image as it was or later. -/
def Out.Tracks (S : Set Image) (imem : Image) (g n : BitVec 64) (c' : RspT) (m : ℕ)
    (keys : List Key) : Out → Prop
  | .goto k f => k ∈ keys ∧ f.spill.imem = imem ∧ f.spill.imemGen = g ∧
      ∃ m' < m, Awaits S n c' m' k.1 f
  | .ret pc f => ∃ m' ≤ m, Awaits S n c' m' pc f ∧ (f.spill.imemGen ≠ g → m' < m)
  | .halt f => f.spill = c'.core ∧ RspT.Lags n c'.nInsns
  | .die => False

section Blocks

variable {S : Set Image} {imem : Image} {w : Walk} {cx : ℕ} {g n : BitVec 64} {c' : RspT}

theorem Out.Tracks.mono {m m' : ℕ} {keys : List Key} {o : Out}
    (h : o.Tracks S imem g n c' m keys) (hm : m ≤ m') : o.Tracks S imem g n c' m' keys := by
  cases o with
  | goto k f =>
    obtain ⟨hk, him, hg, j, hj, haw⟩ := h
    exact ⟨hk, him, hg, j, by omega, haw⟩
  | ret pc f =>
    obtain ⟨j, hj, haw, hlt⟩ := h
    exact ⟨j, by omega, haw, fun hne => by have := hlt hne; omega⟩
  | halt | die => exact h

/-- Induction over the emitted block: each plain instruction is one turn, and the terminator is
what the interpreter does where the block ends; an overlay ends the block before that. -/
theorem Emits.tracks {a : Word} {is : List RspInsn} {t : Term} (he : Emits imem w cx a is t)
    {m : ℕ} {f : Frame} (h : Awaits S n c' m a f) (him : f.spill.imem = imem)
    (hg : f.spill.imemGen = g) : (execBody is t f).Tracks S imem g n c' m t.targets := by
  induction he generalizing m f with
  | interp => exact ⟨m, le_rfl, h, fun hne => absurd hg hne⟩
  | halt hb =>
    obtain ⟨l, hl, hp⟩ := h.plays
    obtain ⟨hcore, hcount⟩ := hp.break_ hb ⟨h.r0, him⟩
    exact ⟨hcore.symm, hcount n hl⟩
  | control ht hc =>
    rename_i a i d t
    obtain ⟨l, hl, hp⟩ := h.plays
    -- two turns of the interpreter, for the transfer and its slot
    obtain ⟨f', k, l', hk, hlag, hr0, hp', hir⟩ := hp.transfer ht ⟨h.r0, him⟩
    have haw : Awaits S n c' k (i.successor f) f' := ⟨i.successor_mask f, hr0, l', hlag n hl, hp'⟩
    rw [execBody]
    rcases hir with ⟨hcont, hlive, hsame⟩ | ⟨hexit, hne⟩
    · rcases Term.exec_control hc f with ⟨key, hmem, hkey, hx⟩ | hx
      · rw [hx, RspInsn.andThen, hcont]
        exact ⟨hmem, hlive.imem, hsame.trans hg, k, hk, hkey ▸ haw⟩
      · rw [hx, RspInsn.andThen, hcont]
        exact ⟨k, hk.le, haw, fun _ => hk⟩
    · have hx : t.exec f = .ret (i.successor f) f' := by
        rcases Term.exec_control hc f with ⟨key, -, -, hx⟩ | hx
        · rw [hx, RspInsn.andThen, hexit]
        · rw [hx, RspInsn.andThen, hexit]
      rw [hx]
      exact ⟨k, hk.le, haw, fun _ => hk⟩
  | br hs hl =>
    obtain ⟨l, hlag, hp⟩ := h.plays
    obtain ⟨f', k, hk, hn, hr0, hp', hir⟩ := hp.straight hs ⟨h.r0, him⟩
    have haw := Awaits.mk (Word.and_ffc_idem _) hr0 ⟨l + 1, hlag.ahead hn, hp'⟩
    rcases hir with ⟨hcont, hlive, hsame⟩ | ⟨hexit, hne⟩
    · rw [execBody, RspInsn.andThen, hcont]
      exact ⟨List.mem_singleton_self _, hlive.imem, hsame.trans hg, k, by omega, haw⟩
    · rw [execBody, RspInsn.andThen, hexit]
      exact ⟨k, by omega, haw, fun _ => by omega⟩
  | next hs _ ih =>
    obtain ⟨l, hlag, hp⟩ := h.plays
    obtain ⟨f', k, hk, hn, hr0, hp', hir⟩ := hp.straight hs ⟨h.r0, him⟩
    have haw := Awaits.mk (Word.and_ffc_idem _) hr0 ⟨l + 1, hlag.ahead hn, hp'⟩
    rcases hir with ⟨hcont, hlive, hsame⟩ | ⟨hexit, hne⟩
    · rw [execBody, RspInsn.andThen, hcont]
      exact (ih haw hlive.imem (hsame.trans hg)).mono (by omega)
    · rw [execBody, RspInsn.andThen, hexit]
      exact ⟨k, by omega, haw, fun _ => by omega⟩

/-- What the function may return: BREAK with the interpreter's machine, or the address at which
the interpreter is, some turns on if an overlay has landed. -/
def Translation.Ret.Tracks (S : Set Image) (g n : BitVec 64) (c' : RspT) (m : ℕ)
    (r : Translation.Ret) : Prop :=
  (r.next = haltedPc ∧ r.core = c'.core ∧ RspT.Lags n c'.nInsns) ∨
    ∃ m' f, m' ≤ m ∧ r.core = f.spill ∧ Awaits S n c' m' r.next f ∧ (r.core.imemGen ≠ g → m' < m)

theorem Translation.Compiled.loop_tracks {T : Translation} (h : T.Compiled w) {m : ℕ} {k : Key}
    {f : Frame} (hk : k ∈ w.leaders) (haw : Awaits S n c' m k.1 f) (him : f.spill.imem = T.imem)
    (hg : f.spill.imemGen = g) {fuel : ℕ} (hfuel : m < fuel) :
    ∃ r, loop T.body fuel (k, f) = some r ∧ r.Tracks S g n c' m := by
  refine loop_ranked (fun j st => j ≤ m ∧ st.1 ∈ w.leaders ∧ st.2.spill.imem = T.imem ∧
    st.2.spill.imemGen = g ∧ Awaits S n c' j st.1.1 st.2) _ ?_ ⟨le_rfl, hk, him, hg, haw⟩ hfuel
  rintro j ⟨k, f⟩ ⟨hj, hk, him, hg, haw⟩
  obtain ⟨b, hb, hem, htg⟩ := h.lookup hk
  have htr := hem.tracks haw him hg
  simp only [Translation.body, hb, Block.exec]
  cases hx : execBody b.body b.term f with
  | goto k' f' =>
    rw [hx] at htr
    obtain ⟨hmem, him', hg', m', hlt, haw'⟩ := htr
    exact .inr ⟨_, m', hlt, rfl, by omega, htg k' hmem, him', hg', haw'⟩
  | ret pc f' =>
    rw [hx] at htr
    obtain ⟨m', hle, haw', hlt⟩ := htr
    exact .inl ⟨_, rfl, .inr ⟨m', f', by omega, rfl, haw', fun hne => by have := hlt hne; omega⟩⟩
  | halt f' =>
    rw [hx] at htr
    exact .inl ⟨_, rfl, .inl ⟨rfl, htr⟩⟩
  | die =>
    rw [hx] at htr
    exact htr.elim

/-- `img.fn` where the interpreter is, on the image it was made from. -/
theorem Translation.Compiled.fn_tracks {T : Translation} (h : T.Compiled w) {m : ℕ} {c : Rsp}
    {cur : Word} (haw : Awaits S n c' m (cur &&& 0xffc) (Frame.enter c)) (him : T.imem = c.imem)
    {fuel : ℕ} (hfuel : m < fuel) :
    ∃ r, T.fn fuel c cur = some r ∧ r.Tracks S c.imemGen n c' m := by
  have hspill : (Frame.enter c).spill = c := Frame.spill_enter c
  simp only [Translation.fn]
  cases hk : (T.roots.map fun r => (r, ((r, 0) : Key))).lookup (cur &&& 0xffc) with
  | none =>
    refine ⟨_, rfl, .inr ⟨m, Frame.enter c, le_rfl, rfl, haw, fun hne => ?_⟩⟩
    rw [hspill] at hne
    exact absurd rfl hne
  | some k =>
    have hcases : indirectCases T.ctxs T.roots 0 = some (T.roots.map fun r => (r, (r, 0))) := rfl
    obtain ⟨hk1, hmem⟩ := indirectCases_lookup hcases hk
    have hlead : k ∈ w.leaders := by
      obtain ⟨x, hx, rfl⟩ := List.mem_map.mp hmem
      obtain ⟨r, hr, rfl⟩ := List.mem_map.mp hx
      exact h.done.led r (h.roots ▸ hr)
    have him' : (Frame.enter c).spill.imem = T.imem := by rw [hspill, him]
    have hg : (Frame.enter c).spill.imemGen = c.imemGen := by rw [hspill]
    exact h.loop_tracks hlead (hk1 ▸ haw) him' hg hfuel

end Blocks

end RspBt
