import RspBt.Bt.Compiles
import RspBt.Bt.Swaps

namespace RspBt

open Lib

def Separates (S : Set Image) : Prop :=
  ∀ a ∈ S, ∀ b ∈ S, fnv1a64 a.bytes = fnv1a64 b.bytes → a = b

def ImageT.Made (img : ImageT) : Prop :=
  img.stale = false → ∃ T w, img.fn = some T ∧ T.imem = img.imem ∧ T.Compiled w

theorem ImageT.Made.insertRoot {img : ImageT} (h : img.Made) (a : Word) : (img.insertRoot a).Made := by
  intro hst
  rw [insertRoot_fn, insertRoot_imem]
  exact h (insertRoot_stale hst)

namespace Memo

/-- Every entry is of an image in `S`, under its hash, and made from it. -/
structure Over (S : Set Image) (p : Memo) : Prop where
  keyed : p.Keyed
  image : ∀ h img, p.cache h = some img → img.imem ∈ S
  made : ∀ h img, p.cache h = some img → img.Made

variable {S : Set Image} {p : Memo} {imem : Image} {n : ℕ} {cur : Word} {hintRoots : List Word}

theorem over_init (S : Set Image) : init.Over S where
  keyed := keyed_init
  image h img hc := by cases hc
  made h img hc := by cases hc

theorem Over.of_cache {q : Memo} (hp : p.Over S) (h : q.cache = p.cache) : q.Over S where
  keyed k img hc := hp.keyed k img (h ▸ hc)
  image k img hc := hp.image k img (h ▸ hc)
  made k img hc := hp.made k img (h ▸ hc)

theorem Over.store (hp : p.Over S) {img : ImageT} (him : img.imem ∈ S) (hmade : img.Made) :
    (p.store (fnv1a64 img.imem.bytes) img).Over S := by
  have hcases (h : BitVec 64) (img' : ImageT)
      (hc : (p.store (fnv1a64 img.imem.bytes) img).cache h = some img') :
      img' = img ∨ p.cache h = some img' := by
    by_cases heq : h = fnv1a64 img.imem.bytes
    · rw [heq, store_self] at hc
      exact .inl (Option.some.inj hc).symm
    · rw [store_other p heq] at hc
      exact .inr hc
  refine ⟨hp.keyed.store rfl, fun h img' hc => ?_, fun h img' hc => ?_⟩
  · rcases hcases h img' hc with rfl | hold
    · exact him
    · exact hp.image h img' hold
  · rcases hcases h img' hc with rfl | hold
    · exact hmade
    · exact hp.made h img' hold

/-- Among separated images, what is found under the hash of an image is its own. -/
theorem Over.serves (hp : p.Over S) (hS : Separates S) (himem : imem ∈ S) : p.Serves imem := by
  intro hst
  rw [hp.keyed.find] at hst ⊢
  cases hc : p.cache (fnv1a64 imem.bytes) with
  | none =>
    simp only [held, hc, Option.getD_none] at hst
    cases hst
  | some img =>
    simp only [held, hc, Option.getD_some] at hst ⊢
    have him : img.imem = imem := hS _ (hp.image _ _ hc) _ himem (hp.keyed _ _ hc).symm
    obtain ⟨T, w, hT, hTi, hcomp⟩ := hp.made _ _ hc hst
    exact ⟨T, w, hT, hTi.trans him, hcomp⟩

/-- A call is served the translation of its image, and the entry it leaves was made from it. -/
theorem Over.serve (hp : p.Over S) (hS : Separates S) (himem : imem ∈ S)
    (hn : compileBound ≤ n) (cur : Word) (hintRoots : List Word) :
    ∃ img compiled T w, p.serve n imem cur hintRoots = some (img, compiled) ∧ img.fn = some T ∧
      T.imem = imem ∧ T.Compiled w ∧ img.imem = imem ∧ img.Made := by
  obtain ⟨img, compiled, T, w, hserve, him, hfn, hT, hc⟩ :=
    (hp.serves hS himem).serve hn cur hintRoots
  exact ⟨img, compiled, T, w, hserve, hfn, hT, hc, him, fun _ => ⟨T, w, hfn, hT.trans him.symm, hc⟩⟩

theorem Over.served (hp : p.Over S) (himem : imem ∈ S) {img : ImageT} (him : img.imem = imem)
    (hmade : img.Made) (compiled : Bool) : (p.served imem img compiled).Over S := by
  subst him
  have hkey : (p.find img.imem).1 = fnv1a64 img.imem.bytes := by rw [hp.keyed.find]
  have hcache := (p.served_cache img.imem img compiled).1
  rw [hkey] at hcache
  exact (hp.store himem hmade).of_cache hcache

def Follows (S : Set Image) (c' : RspT) (j : ℕ) (st : Memo × RspT × Word) : Prop :=
  st.1.Over S ∧ Awaits S st.2.1.nInsns c' j (st.2.2 &&& 0xffc) (Frame.enter st.2.1.core)

def Ended (S : Set Image) (c' : RspT) (r : Memo × RspT) : Prop :=
  r.1.Over S ∧ r.2.core = c'.core ∧ RspT.Lags r.2.nInsns c'.nInsns

/-- One turn of `for(;;)` ends the task, or comes to the next image some of the interpreter's
turns later. -/
theorem Follows.turn (hS : Separates S) {c' : RspT} {j : ℕ} {st : Memo × RspT × Word}
    (h : Follows S c' j st) (hn : compileBound ≤ n) (hjn : j < n) :
    (∃ r, turn n hintRoots st = some (.inr r) ∧ Ended S c' r) ∨
      ∃ st' j', j' < j ∧ turn n hintRoots st = some (.inl st') ∧ Follows S c' j' st' := by
  obtain ⟨p, d, cur⟩ := st
  obtain ⟨hp, haw⟩ := h
  have hspill : (Frame.enter d.core).spill = d.core := Frame.spill_enter d.core
  have himem : d.core.imem ∈ S := by
    obtain ⟨l, -, hplays⟩ := haw.plays
    rw [hspill] at hplays
    exact hplays.image
  obtain ⟨img, compiled, T, w, hserve, hfn, hT, hc, him, hmade⟩ :=
    hp.serve hS himem hn cur hintRoots
  have hover := hp.served himem him hmade compiled
  obtain ⟨r, hr, htr⟩ := hc.fn_tracks haw hT hjn
  rcases htr with ⟨hnext, hcore, hcount⟩ | ⟨j', f, hj', hcore, haw', hlt⟩
  · exact .inl ⟨_, turn_of_break hserve hfn hr hnext, hover, hcore, hcount⟩
  · have hne : r.next ≠ haltedPc := ne_haltedPc haw'.masked
    have hplays := haw'.plays
    rw [← hcore] at hplays
    by_cases hg : r.core.imemGen ≠ d.core.imemGen
    -- an overlay has landed: the memo goes round
    · refine .inr ⟨({ p.served d.core.imem img compiled with
        nOverlaySwaps := (p.served d.core.imem img compiled).nOverlaySwaps + 1 },
        { d with core := r.core, halted := r.halted }, r.next), j', hlt hg, ?_, ?_, ?_⟩
      · simp only [Memo.turn, hserve, hfn, Option.bind_some, hr, if_neg hne, if_pos hg]
        rfl
      · exact hover.of_cache rfl
      · refine ⟨Word.and_ffc_idem _, ?_, ?_⟩
        · change r.core.r 0 = 0
          rw [hcore, Frame.spill_r_zero]
          exact haw'.r0
        · rw [Frame.spill_enter, haw'.masked]
          exact hplays
    -- no case of a jr: the interpreter has the rest
    · obtain ⟨l, hl, hplays⟩ := hplays
      obtain ⟨e, he, hecore, hecount⟩ := RspT.loop_of_lags hplays.run hl
      have hstart : RspT.run n { d with core := r.core, halted := r.halted } r.next = some e := by
        refine loop_mono_fuel (by omega : j' ≤ n) ?_
        rw [RspT.start, haw'.masked]
        exact he
      have himroot : (img.insertRoot r.next).imem = d.core.imem :=
        (ImageT.insertRoot_imem _ _).trans him
      have hroot := hp.served himem himroot (hmade.insertRoot _) compiled
      refine .inl ⟨({ (p.served d.core.imem img compiled).store (p.find d.core.imem).1
        (img.insertRoot r.next) with
        nFallbacks := (p.served d.core.imem img compiled).nFallbacks + 1 }, e), ?_, ?_, hecore,
        hecount⟩
      · simp only [Memo.turn, hserve, hfn, Option.bind_some, hr, if_neg hne, if_neg hg]
        rw [hstart]
        rfl
      · -- the second store overwrites the first
        have hcache : ((p.served d.core.imem img compiled).store (p.find d.core.imem).1
            (img.insertRoot r.next)).cache =
            (p.served d.core.imem (img.insertRoot r.next) compiled).cache := by
          rw [(p.served_cache d.core.imem (img.insertRoot r.next) compiled).1]
          refine (congrArg (fun g => Function.update g _ _)
            (p.served_cache d.core.imem img compiled).1).trans ?_
          exact Function.update_idem ..
        exact hroot.of_cache hcache

/-- The translator plays a task as the interpreter does: from the same machine, with a count of
instructions that is no further, whatever the hints. -/
theorem Over.run (hp : p.Over S) (hS : Separates S) {c c' d : RspT} {pc : Word} {m : ℕ}
    (hcore : d.core = c.core) (hlag : RspT.Lags d.nInsns c.nInsns) (h0 : c.core.r 0 = 0)
    (htame : RspT.Tame S (c.start pc)) (hrun : c.run m pc = some c') (hn : compileBound ≤ n)
    (hmn : m < n) (hintRoots : List Word) :
    ∃ r, p.run n d pc hintRoots = some r ∧ Ended S c' r := by
  have haw : Awaits S d.nInsns c' m (pc &&& 0xffc) (Frame.enter d.core) := by
    refine ⟨Word.and_ffc_idem pc, ?_, c.nInsns, hlag, ?_⟩
    · rw [hcore]
      exact h0
    · rw [Frame.spill_enter, hcore]
      exact ⟨hrun, htame⟩
  refine loop_ranked (fun j st => j ≤ m ∧ Follows S c' j st) _ ?_ ⟨le_rfl, hp, haw⟩ hmn
  rintro j st ⟨hj, hst⟩
  rcases hst.turn hS hn (by omega : j < n) with hdone | ⟨st', j', hlt, ht, hst'⟩
  · exact .inl hdone
  · exact .inr ⟨st', j', hlt, ht, by omega, hst'⟩

end Memo

/-- A call of the host: the machine as it prepares it, and what it asks for. -/
structure Task where
  prepare : Rsp → Rsp
  pc : Word
  hintRoots : List Word

def RspT.given (c : RspT) (t : Task) : RspT := { c with core := t.prepare c.core }

inductive RspT.PlaysAll (S : Set Image) : RspT → List Task → RspT → Prop
  | nil {c : RspT} : PlaysAll S c [] c
  | cons {c c₁ c' : RspT} {t : Task} {ts : List Task} {m : ℕ} (h0 : (c.given t).core.r 0 = 0)
      (htame : Tame S ((c.given t).start t.pc)) (hrun : (c.given t).run m t.pc = some c₁)
      (hrest : PlaysAll S c₁ ts c') : PlaysAll S c (t :: ts) c'

/-- The same host with the translator; every loop takes at most `n` turns. -/
def Memo.runs (n : ℕ) : Memo → RspT → List Task → Option (Memo × RspT)
  | p, c, [] => some (p, c)
  | p, c, t :: ts =>
    match p.run n (c.given t) t.pc t.hintRoots with
    | none => none
    | some (p, c) => runs n p c ts

/-- One memo serves the whole session: after every task the machine is the interpreter's. -/
theorem Memo.Over.runs {S : Set Image} (hS : Separates S) {c c' : RspT} {ts : List Task}
    (h : RspT.PlaysAll S c ts c') {p : Memo} (hp : p.Over S) {d : RspT} (hcore : d.core = c.core)
    (hlag : RspT.Lags d.nInsns c.nInsns) :
    ∃ N, ∀ n, N ≤ n → ∃ r, p.runs n d ts = some r ∧ Ended S c' r := by
  -- the fuel of each task before the fuel of the rest, for any memo the task may leave
  suffices hall : ∃ N, ∀ n, N ≤ n → ∀ (p : Memo) (d : RspT), p.Over S → d.core = c.core →
      RspT.Lags d.nInsns c.nInsns → ∃ r, p.runs n d ts = some r ∧ Ended S c' r by
    obtain ⟨N, hN⟩ := hall
    exact ⟨N, fun n hn => hN n hn p d hp hcore hlag⟩
  clear hcore hlag hp
  induction h with
  | nil => exact ⟨0, fun n _ p d hp hcore hlag => ⟨(p, d), rfl, hp, hcore, hlag⟩⟩
  | @cons c c₁ c' t ts m h0 htame hrun _ ih =>
    obtain ⟨N, hN⟩ := ih
    refine ⟨N + compileBound + m + 1, fun n hn p d hp hcore hlag => ?_⟩
    have hgiven : (d.given t).core = (c.given t).core := congrArg t.prepare hcore
    obtain ⟨⟨q, e⟩, hr, hq, hecore, helag⟩ := hp.run hS hgiven hlag h0 htame hrun
      (by omega : compileBound ≤ n) (by omega) t.hintRoots
    obtain ⟨r, hrs, hend⟩ := hN n (by omega) q e hq hecore helag
    refine ⟨r, ?_, hend⟩
    rw [Memo.runs, hr]
    exact hrs

/-- A session from an empty memo, with any hints: where the interpreter plays every task to its
BREAK, and no two of the images it passes through have one hash, the translator leaves the same
machine. -/
theorem runs_eq_interp {S : Set Image} (hS : Separates S) {c c' : RspT} {ts : List Task}
    (h : RspT.PlaysAll S c ts c') :
    ∃ N, ∀ n, N ≤ n → ∃ p d, Memo.init.runs n c ts = some (p, d) ∧ d.core = c'.core := by
  obtain ⟨N, hN⟩ := (Memo.over_init S).runs hS h rfl (.refl c.nInsns)
  refine ⟨N, fun n hn => ?_⟩
  obtain ⟨⟨p, d⟩, hr, -, hcore, -⟩ := hN n hn
  exact ⟨p, d, hr, hcore⟩

/-- `mtc0 $0, SP_RD_LEN` and a BREAK. -/
def reloadCode : List Byte := [0x40, 0x80, 0x10, 0x00, 0x00, 0x00, 0x00, 0x0d]

def reloadTask : RspT where
  core := { Rsp.withCode reloadCode with
    spMemAddr := 0x1000, rdram := fun a => reloadCode.getD a 0 }
  pc := 0
  halted := false
  nInsns := 0

def reloadTask.swapped : Rsp := (reloadTask.core.dma 0 true).zeroR0

def reloadTask.done : RspT :=
  { core := swapped.zeroR0, pc := 8, halted := true, nInsns := 2 }

theorem imem_swapped : reloadTask.swapped.imem = reloadTask.core.imem := by
  funext i
  have hmem : reloadTask.swapped.mem =
      memcpy reloadTask.core.mem 0x1000 reloadTask.core.rdram 0 8 := rfl
  change reloadTask.swapped.mem (0x1000 + i) = reloadTask.core.mem (0x1000 + i)
  rw [hmem]
  by_cases hi : i.val < 8
  · rw [memcpy_in (by omega) (by omega)]
    simp only [reloadTask, Rsp.withCode, if_pos (Nat.le_add_right 0x1000 i.val),
      Nat.add_sub_cancel_left, Nat.zero_add]
  · exact memcpy_out (by omega)

theorem turn_reloadTask :
    RspT.turn (reloadTask.start 0) = some (.inl (RspT.cfg reloadTask.swapped 4 8 1)) := by
  have hsw : reloadTask.core.switch 4 (fetch reloadTask.core.imem 0) =
      some ⟨reloadTask.core.dma 0 true, 8, false⟩ := rfl
  have hn : RspT.InBudget 0 := by
    unfold RspT.InBudget
    decide
  exact RspT.turn_of_switch hsw hn

theorem turn_swapped :
    RspT.turn (RspT.cfg reloadTask.swapped 4 8 1) = some (.inl (reloadTask.done, 12)) := by
  have hsw : reloadTask.swapped.switch 8 (fetch reloadTask.swapped.imem 4) =
      some ⟨reloadTask.swapped, (8 + 4) &&& 0xffc, true⟩ := by
    rw [imem_swapped]
    exact RspInsn.switch_of_break rfl _ 8
  have hn : RspT.InBudget 1 := by
    unfold RspT.InBudget
    decide
  exact RspT.turn_of_switch hsw hn

theorem turns_reloadTask {st : RspT × Word} (h : Turns RspT.turn (reloadTask.start 0) st) :
    st = reloadTask.start 0 ∨ st = RspT.cfg reloadTask.swapped 4 8 1 ∨
      st = (reloadTask.done, 12) := by
  rcases h.cases_head with rfl | ⟨t, ht, h⟩
  · exact .inl rfl
  · rw [turn_reloadTask] at ht
    obtain rfl := Sum.inl.inj (Option.some.inj ht)
    rcases h.cases_head with rfl | ⟨t, ht, h⟩
    · exact .inr (.inl rfl)
    · rw [turn_swapped] at ht
      obtain rfl := Sum.inl.inj (Option.some.inj ht)
      rcases h.cases_head with rfl | ⟨t, ht, -⟩
      · exact .inr (.inr rfl)
      · cases ht

theorem tame_reloadTask : RspT.Tame {reloadTask.core.imem} (reloadTask.start 0) where
  images st h := by
    rcases turns_reloadTask h with rfl | rfl | rfl
    · rfl
    · exact imem_swapped
    · exact imem_swapped
  inSequence st st' h ht _ := by
    rcases turns_reloadTask h with rfl | rfl | rfl
    · rfl
    · rfl
    · cases ht

theorem runs_eq_interp_reload :
    ∃ N, ∀ n, N ≤ n → ∃ p d, Memo.init.runs n reloadTask [⟨id, 0, [0x40]⟩] = some (p, d) ∧
      d.core = reloadTask.done.core := by
  have hrun : reloadTask.run 3 0 = some reloadTask.done :=
    (loop_next turn_reloadTask 2).trans ((loop_next turn_swapped 1).trans (loop_done rfl 0))
  refine runs_eq_interp (S := {reloadTask.core.imem}) ?_
    (.cons (t := ⟨id, 0, [0x40]⟩) rfl tame_reloadTask hrun .nil)
  rintro a rfl b rfl -
  rfl

end RspBt
