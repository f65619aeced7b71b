import RspBt.Bt.Memo

namespace RspBt

open Lib

namespace ImageT

theorem insertRoot_fn (img : ImageT) (a : Word) : (img.insertRoot a).fn = img.fn := by
  unfold insertRoot
  split_ifs <;> rfl

theorem insertRoot_imem (img : ImageT) (a : Word) : (img.insertRoot a).imem = img.imem := by
  unfold insertRoot
  split_ifs <;> rfl

theorem insertRoot_stale {img : ImageT} {a : Word} (h : (img.insertRoot a).stale = false) :
    img.stale = false := by
  unfold insertRoot at h
  split_ifs at h
  exact h

/-- Roots only make an entry stale. -/
theorem insertRoots_spec (l : List Word) (img : ImageT) :
    (l.foldl insertRoot img).fn = img.fn ∧ (l.foldl insertRoot img).imem = img.imem ∧
      ((l.foldl insertRoot img).stale = false → img.stale = false) := by
  induction l generalizing img with
  | nil => exact ⟨rfl, rfl, id⟩
  | cons a l ih =>
    obtain ⟨hfn, him, hst⟩ := ih (img.insertRoot a)
    exact ⟨hfn.trans (insertRoot_fn img a), him.trans (insertRoot_imem img a),
      fun h => insertRoot_stale (hst h)⟩

end ImageT

namespace Memo

variable {p : Memo} {imem : Image}

theorem offer_spec (p : Memo) (imem : Image) (cur : Word) (hintRoots : List Word) :
    (p.offer imem cur hintRoots).fn = (p.find imem).2.fn ∧
      (p.offer imem cur hintRoots).imem = (p.find imem).2.imem ∧
      ((p.offer imem cur hintRoots).stale = false → (p.find imem).2.stale = false) := by
  obtain ⟨hfn, him, hst⟩ := ImageT.insertRoots_spec hintRoots ((p.find imem).2.insertRoot cur)
  exact ⟨hfn.trans (ImageT.insertRoot_fn _ _), him.trans (ImageT.insertRoot_imem _ _),
    fun h => ImageT.insertRoot_stale (hst h)⟩

/-- The translation the memo has for `imem`, if it is to be used, was made from `imem`. -/
def Serves (p : Memo) (imem : Image) : Prop :=
  (p.find imem).2.stale = false →
    ∃ T w, (p.find imem).2.fn = some T ∧ T.imem = imem ∧ T.Compiled w

theorem find_imem (p : Memo) (imem : Image) : (p.find imem).2.imem = imem := by
  unfold find
  split
  · rfl
  · split_ifs with him
    · exact him
    · rfl

/-- The entry that was called last is found again. -/
theorem find_of_last {h : BitVec 64} {img : ImageT} (hc : p.cache h = some img)
    (hl : p.last = some h) (him : img.imem = imem) : p.find imem = (h, img) := by
  have hlast : p.lastImage = some (h, img) := by
    rw [lastImage, hl, Option.bind_some, hc]
    rfl
  unfold find
  rw [hlast]
  exact if_pos him

theorem Serves.serve (h : p.Serves imem) {n : ℕ} (hn : compileBound ≤ n) (cur : Word)
    (hintRoots : List Word) : ∃ img compiled T w, p.serve n imem cur hintRoots = some (img, compiled) ∧
      img.imem = imem ∧ img.fn = some T ∧ T.imem = imem ∧ T.Compiled w := by
  obtain ⟨hfn, hoffer, hst⟩ := offer_spec p imem cur hintRoots
  have himem := hoffer.trans (p.find_imem imem)
  rw [Memo.serve]
  cases hs : (p.offer imem cur hintRoots).stale with
  | false =>
    obtain ⟨T, w, hT, him, hc⟩ := h (hst hs)
    exact ⟨_, _, T, w, rfl, himem, hfn.trans hT, him, hc⟩
  | true =>
    obtain ⟨T, w, hT, him, hc, -⟩ := compile_total imem (p.offer imem cur hintRoots).roots hn
    rw [if_pos rfl, ImageT.compile, hT]
    exact ⟨_, _, T, w, rfl, himem, rfl, him, hc⟩

end Memo

/-- No transfer of the interpreter's run goes into instruction memory. -/
def RspT.NoOverlay (c : RspT) (pc : Word) : Prop :=
  ∀ st, Turns RspT.turn (c.start pc) st → st.1.core.imemGen = c.core.imemGen

theorem ne_haltedPc {a : Word} (h : a &&& 0xffc = a) : a ≠ haltedPc := by
  rintro rfl
  exact absurd h (by decide)

namespace Memo

def served (p : Memo) (imem : Image) (img : ImageT) (compiled : Bool) : Memo :=
  let q := p.store (p.find imem).1 img
  if compiled then { q with nCompiles := q.nCompiles + 1 } else q

theorem served_cache (p : Memo) (imem : Image) (img : ImageT) (compiled : Bool) :
    (p.served imem img compiled).cache = (p.store (p.find imem).1 img).cache ∧
      (p.served imem img compiled).last = some (p.find imem).1 := by
  cases compiled <;> exact ⟨rfl, rfl⟩

/-- After a call the entry serves its image, whatever roots it is given then. -/
theorem serves_served {q : Memo} {h : BitVec 64} {img : ImageT} {T : Translation} {w : Walk}
    (hc : q.cache h = some img) (hl : q.last = some h) (him : img.imem = imem)
    (hfn : img.fn = some T) (hT : T.imem = imem) (hw : T.Compiled w) : q.Serves imem := by
  intro _
  rw [find_of_last hc hl him]
  exact ⟨T, w, hfn, hT, hw⟩

theorem turn_of_break {p : Memo} {c : RspT} {cur : Word} {hintRoots : List Word} {n : ℕ}
    {img : ImageT} {compiled : Bool} {T : Translation} {r : Translation.Ret}
    (hs : p.serve n c.core.imem cur hintRoots = some (img, compiled)) (hT : img.fn = some T)
    (hr : T.fn n c.core cur = some r) (hnext : r.next = haltedPc) :
    turn n hintRoots (p, c, cur) = some (.inr (p.served c.core.imem img compiled,
      { c with core := r.core, halted := r.halted })) := by
  simp only [turn, hs, hT, Option.bind_some, hr, if_pos hnext]
  rfl

/-- One turn of `for(;;)` is enough: the function returns where the interpreter is, which
then finishes.  The memo it leaves serves the image again. -/
theorem run_follows {p : Memo} {c c' : RspT} {pc : Word} {m n : ℕ} (h0 : c.core.r 0 = 0)
    (hquiet : c.NoOverlay pc) (hrun : c.run m pc = some c') (hserves : p.Serves c.core.imem)
    (hn : compileBound ≤ n) (hmn : m < n) (hintRoots : List Word) :
    ∃ p' d, p.run n c pc hintRoots = some (p', d) ∧ d.core = c'.core ∧
      p'.Serves c.core.imem := by
  obtain ⟨img, compiled, T, w, hserve, himg, hfn, him, hc⟩ := hserves.serve hn pc hintRoots
  have hspill : (Frame.enter c.core).spill = c.core := Frame.spill_enter c.core
  have hres : Resumes T.imem c.core.imemGen c.nInsns c' m (pc &&& 0xffc) (Frame.enter c.core) := by
    refine ⟨Word.and_ffc_idem pc, ⟨h0, by rw [hspill, him]⟩, c.nInsns, .refl _, ?_⟩
    rw [hspill]
    exact ⟨hrun, hquiet⟩
  obtain ⟨r, hr, hfol⟩ := hc.fn_follows hres hmn
  obtain ⟨n, rfl⟩ : ∃ k, n = k + 1 := ⟨n - 1, by omega⟩
  have hturn : ∃ p' d, turn (n + 1) hintRoots (p, { c with halted := false }, pc) =
      some (.inr (p', d)) ∧ d.core = c'.core ∧ p'.Serves c.core.imem := by
    rcases hfol with ⟨hnext, hcore⟩ | ⟨m', f, hm', hcore, hres'⟩
    · have hcache := p.served_cache c.core.imem img compiled
      refine ⟨_, _, turn_of_break hserve hfn hr hnext, hcore, ?_⟩
      exact serves_served (hcache.1 ▸ store_self ..) hcache.2 himg hfn him hc
    · simp only [turn, hserve, hfn, Option.bind_some, hr]
      obtain ⟨l, hl, hends⟩ := hres'.ends
      have hgen : r.core.imemGen = c.core.imemGen := hcore ▸ hends.gen
      rw [if_neg (ne_haltedPc hres'.masked), if_neg (not_not.mpr hgen)]
      obtain ⟨d, hd, hdc⟩ := hends.of_lags hl
      have hstart : RspT.run (n + 1) { c with core := r.core, halted := r.halted } r.next = some d := by
        refine loop_mono_fuel (by omega : m' ≤ n + 1) ?_
        rw [RspT.start, hres'.masked, hcore]
        exact hd
      rw [hstart]
      refine ⟨_, d, rfl, hdc, ?_⟩
      exact serves_served (store_self ..) rfl ((ImageT.insertRoot_imem img r.next).trans himg)
        ((ImageT.insertRoot_fn img r.next).trans hfn) him hc
  obtain ⟨p', d, ht, hd⟩ := hturn
  exact ⟨p', d, loop_done ht n, hd⟩

theorem serves_init (imem : Image) : init.Serves imem := by
  intro h
  cases h

/-- Where the interpreter reaches its BREAK without loading instruction memory, translated
code ends too, and with the same machine: for every memo, so for every set of roots that
earlier runs left, and for every two sets of hints. -/
theorem run_eq_interp {c c' : RspT} {pc : Word} {m : ℕ} (h0 : c.core.r 0 = 0)
    (hquiet : c.NoOverlay pc) (hrun : c.run m pc = some c') {p q : Memo}
    (hp : p.Serves c.core.imem) (hq : q.Serves c.core.imem) (hints hints' : List Word) :
    ∃ N, ∀ n, N ≤ n → ∃ p' q' d e, p.run n c pc hints = some (p', d) ∧
      q.run n c pc hints' = some (q', e) ∧ d.core = c'.core ∧ e.core = d.core := by
  refine ⟨compileBound + m + 1, fun n hn => ?_⟩
  have hb : compileBound ≤ n := by omega
  have hm : m < n := by omega
  obtain ⟨p', d, hd, hdc, -⟩ := run_follows h0 hquiet hrun hp hb hm hints
  obtain ⟨q', e, he, hec, -⟩ := run_follows h0 hquiet hrun hq hb hm hints'
  exact ⟨p', q', d, e, hd, he, hdc, hec.trans hdc.symm⟩

/-- A call, and the return to the BREAK behind it. -/
def callTask : RspT where
  core := Rsp.withCode [0x0c, 0x00, 0x00, 0x04,  -- jal 0x10
    0x00, 0x00, 0x00, 0x00,
    0x00, 0x00, 0x00, 0x0d,                      -- break
    0x00, 0x00, 0x00, 0x00,
    0x03, 0xe0, 0x00, 0x08]                      -- jr $31
  pc := 0
  halted := false
  nInsns := 0

def callTask.turns : ℕ → RspT × Word
  | 0 => callTask.start 0
  | k + 1 =>
    match RspT.turn (turns k) with
    | some (.inl st) => st
    | _ => turns k

theorem turn_callTask : ∀ k < 5,
    RspT.turn (callTask.turns k) = some (.inl (callTask.turns (k + 1)))
  | 0, _ => rfl
  | 1, _ => rfl
  | 2, _ => rfl
  | 3, _ => rfl
  | 4, _ => rfl

theorem turn_callTask_last : RspT.turn (callTask.turns 5) = some (.inr (callTask.turns 5).1) := rfl

theorem imemGen_callTask : ∀ k < 6, (callTask.turns k).1.core.imemGen = callTask.core.imemGen
  | 0, _ => rfl
  | 1, _ => rfl
  | 2, _ => rfl
  | 3, _ => rfl
  | 4, _ => rfl
  | 5, _ => rfl

theorem run_callTask : callTask.run 6 0 = some (callTask.turns 5).1 :=
  (loop_next (turn_callTask 0 (by decide)) 5).trans <|
    (loop_next (turn_callTask 1 (by decide)) 4).trans <|
    (loop_next (turn_callTask 2 (by decide)) 3).trans <|
    (loop_next (turn_callTask 3 (by decide)) 2).trans <|
    (loop_next (turn_callTask 4 (by decide)) 1).trans (loop_done turn_callTask_last 0)

theorem noOverlay_callTask : callTask.NoOverlay 0 := by
  suffices hall : ∀ st, Turns RspT.turn (callTask.start 0) st → ∃ k < 6, st = callTask.turns k by
    intro st hst
    obtain ⟨k, hk, rfl⟩ := hall st hst
    exact imemGen_callTask k hk
  intro st hst
  refine hst.inv (fun st => ∃ k < 6, st = callTask.turns k) ?_ ⟨0, by decide, rfl⟩
  rintro _ st' ⟨k, hk, rfl⟩ hturn
  by_cases hlast : k = 5
  · subst hlast
    rw [turn_callTask_last] at hturn
    cases hturn
  · rw [turn_callTask k (by omega)] at hturn
    obtain rfl := Sum.inl.inj (Option.some.inj hturn)
    exact ⟨k + 1, by omega, rfl⟩

/-- On the memo of an earlier call, which hinted at the callee, and on an empty one. -/
theorem run_eq_interp_call : ∃ m p d₀, init.run m callTask 0 [0x10] = some (p, d₀) ∧
    ∃ N, ∀ n, N ≤ n → ∃ p' q' d e, p.run n callTask 0 [] = some (p', d) ∧
      init.run n callTask 0 [8] = some (q', e) ∧ d.core = (callTask.turns 5).1.core ∧
      e.core = d.core := by
  obtain ⟨p, d₀, hfirst, -, hserves⟩ := run_follows rfl noOverlay_callTask run_callTask
    (serves_init _) (Nat.le_add_right compileBound 7) (by omega : 6 < compileBound + 7) [0x10]
  exact ⟨_, p, d₀, hfirst,
    run_eq_interp rfl noOverlay_callTask run_callTask hserves (serves_init _) [] [8]⟩

end Memo

end RspBt
