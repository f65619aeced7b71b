import Mathlib.Data.BitVec
import Mathlib.Data.Set.Finite.List
import Mathlib.Data.Fintype.EquivFin
import RspBt.Bt.Walk

namespace RspBt

open Lib

namespace Image

theorem at_addr {imem : Image} {a : Word} {i : RspInsn} (h : imem.at a = some i) :
    i.addr = a &&& 0xffc := by
  obtain ⟨cls, -, rfl⟩ := Option.map_eq_some_iff.mp h
  rfl

theorem at_mask (imem : Image) (a : Word) : imem.at (a &&& 0xffc) = imem.at a := by
  rw [Image.at, Image.at, Word.and_ffc_idem]

theorem at_mask_add_four (imem : Image) (a : Word) : imem.at ((a &&& 0xffc) + 4) = imem.at (a + 4) := by
  have h : ((a &&& 0xffc) + 4) &&& 0xffc = (a + 4) &&& 0xffc := Word.and_ffc_add a 4 rfl
  rw [Image.at, Image.at, h]

theorem translatable_mask (imem : Image) (a : Word) :
    imem.translatable (a &&& 0xffc) = imem.translatable a := by
  rw [translatable, translatable, at_mask, at_mask_add_four]

def StraightAt (imem : Image) (a : Word) (i : RspInsn) : Prop :=
  imem.at a = some i ∧ i.isStraight

def TransferAt (imem : Image) (a : Word) (i d : RspInsn) : Prop :=
  imem.at a = some i ∧ i.isControl ∧ imem.at (a + 4) = some d ∧ d.isStraight

def BreakAt (imem : Image) (a : Word) (i : RspInsn) : Prop :=
  imem.at a = some i ∧ i.isBreak

/-- What stands at an address. -/
theorem site (imem : Image) (a : Word) :
    imem.translatable a = false ∨ (∃ i, imem.BreakAt a i) ∨ (∃ i d, imem.TransferAt a i d) ∨
      ∃ i, imem.StraightAt a i := by
  cases hat : imem.at a with
  | none => exact .inl (by simp only [translatable, hat])
  | some i =>
    by_cases hc : i.isControl
    · cases hd : imem.at (a + 4) with
      | none => exact .inl (by simp only [translatable, hat, hc, if_true, hd])
      | some d =>
        by_cases hs : d.isStraight
        · exact .inr (.inr (.inl ⟨i, d, hat, hc, hd, hs⟩))
        · refine .inl ?_
          simp only [translatable, hat, hc, if_true, hd]
          simpa only [RspInsn.isStraight, Bool.not_eq_true] using hs
    · by_cases hb : i.isBreak
      · exact .inr (.inl ⟨i, hat, hb⟩)
      · refine .inr (.inr (.inr ⟨i, hat, ?_⟩))
        simp only [RspInsn.isStraight, hc, hb, Bool.not_false, Bool.and_self]

theorem isControl_of_isStraight {i : RspInsn} (h : i.isStraight) :
    i.isControl = false ∧ i.isBreak = false := by
  simpa only [RspInsn.isStraight, Bool.and_eq_true, Bool.not_eq_true'] using h

theorem isControl_of_isBreak {i : RspInsn} (h : i.isBreak) : i.isControl = false := by
  have hc : i.cls = .break_ := by simpa only [RspInsn.isBreak, decide_eq_true_eq] using h
  simp only [RspInsn.isControl, hc]

theorem StraightAt.translatable {imem : Image} {a : Word} {i : RspInsn} (h : imem.StraightAt a i) :
    imem.translatable a = true := by
  simp only [Image.translatable, h.1, (isControl_of_isStraight h.2).1, Bool.false_eq_true, if_false]

theorem BreakAt.translatable {imem : Image} {a : Word} {i : RspInsn} (h : imem.BreakAt a i) :
    imem.translatable a = true := by
  simp only [Image.translatable, h.1, isControl_of_isBreak h.2, Bool.false_eq_true, if_false]

theorem TransferAt.translatable {imem : Image} {a : Word} {i d : RspInsn}
    (h : imem.TransferAt a i d) : imem.translatable a = true := by
  obtain ⟨hi, hc, hd, hs⟩ := h
  obtain ⟨hdc, hdb⟩ := isControl_of_isStraight hs
  simp only [Image.translatable, hi, hc, if_true, hd, hdc, hdb, Bool.not_false, Bool.and_self]

-- One word is of one kind, so the cases of `site` exclude each other.

theorem StraightAt.not_transfer {imem : Image} {a : Word} {i j d : RspInsn}
    (h : imem.StraightAt a i) : ¬ imem.TransferAt a j d := by
  intro h'
  have hc := h'.2.1
  rw [Option.some.inj (h'.1.symm.trans h.1), (isControl_of_isStraight h.2).1] at hc
  cases hc

theorem StraightAt.not_break {imem : Image} {a : Word} {i j : RspInsn}
    (h : imem.StraightAt a i) : ¬ imem.BreakAt a j := by
  intro h'
  have hb := h'.2
  rw [Option.some.inj (h'.1.symm.trans h.1), (isControl_of_isStraight h.2).2] at hb
  cases hb

theorem BreakAt.not_transfer {imem : Image} {a : Word} {i j d : RspInsn}
    (h : imem.BreakAt a i) : ¬ imem.TransferAt a j d := by
  intro h'
  have hc := h'.2.1
  rw [Option.some.inj (h'.1.symm.trans h.1), isControl_of_isBreak h.2] at hc
  cases hc

end Image

namespace Walk

def markWalked (w : Walk) (k : Key) : Walk := { w with walked := setInsert Key.leb k w.walked }
def markLeader (w : Walk) (k : Key) : Walk := { w with leaders := setInsert Key.leb k w.leaders }

variable {imem : Image} {w : Walk} {a : Word} {cx : ℕ}

theorem runBody_walked (h : (a, cx) ∈ w.walked) :
    runBody imem cx (w, a) = some (.inr (w.markLeader (a, cx))) := by
  simp only [runBody, if_pos h, markLeader]

theorem runBody_data (h : (a, cx) ∉ w.walked) (hd : imem.translatable a = false) :
    runBody imem cx (w, a) = some (.inr (w.markWalked (a, cx))) := by
  simp only [runBody, if_neg h, hd, if_true, markWalked]
  cases imem.at a <;> rfl

theorem runBody_break (h : (a, cx) ∉ w.walked) {i : RspInsn} (hb : imem.BreakAt a i) :
    runBody imem cx (w, a) = some (.inr (w.markWalked (a, cx))) := by
  simp only [runBody, if_neg h, hb.1, hb.translatable, hb.2, if_true, markWalked]
  rfl

theorem runBody_transfer (h : (a, cx) ∉ w.walked) {i d : RspInsn} (ht : imem.TransferAt a i d) :
    runBody imem cx (w, a) = ((w.markWalked (a, cx)).transfer i a cx).map .inr := by
  have hb : i.isBreak = false := by
    by_contra hb
    have hbreak : imem.BreakAt a i := ⟨ht.1, by simpa only [Bool.not_eq_false] using hb⟩
    exact hbreak.not_transfer ht
  simp only [runBody, if_neg h, ht.1, ht.translatable, ht.2.1, hb, if_true, markWalked]
  rfl

theorem runBody_straight (h : (a, cx) ∉ w.walked) {i : RspInsn} (hs : imem.StraightAt a i) :
    runBody imem cx (w, a) = some (.inl (w.markWalked (a, cx), (a + 4) &&& 0xffc)) := by
  obtain ⟨hc, hb⟩ := Image.isControl_of_isStraight hs.2
  simp only [runBody, if_neg h, hs.1, hs.translatable, hc, hb, markWalked]
  rfl

/-- The sets only grow, and an id keeps its string. -/
structure Le (v w : Walk) : Prop where
  ctxs : v.ctxs.Le w.ctxs
  leaders : ∀ k ∈ v.leaders, k ∈ w.leaders
  walked : ∀ k ∈ v.walked, k ∈ w.walked
  roots : ∀ r ∈ v.roots, r ∈ w.roots

theorem Le.refl (w : Walk) : Le w w :=
  ⟨Contexts.Le.refl _, fun _ h => h, fun _ h => h, fun _ h => h⟩

theorem Le.trans {u v w : Walk} (h : Le u v) (h' : Le v w) : Le u w :=
  ⟨h.ctxs.trans h'.ctxs, fun k hk => h'.leaders k (h.leaders k hk),
    fun k hk => h'.walked k (h.walked k hk), fun r hr => h'.roots r (h.roots r hr)⟩

theorem le_markWalked (w : Walk) (k : Key) : Le w (w.markWalked k) :=
  ⟨Contexts.Le.refl _, fun _ h => h, fun _ h => mem_setInsert.mpr (.inr h), fun _ h => h⟩

theorem le_markLeader (w : Walk) (k : Key) : Le w (w.markLeader k) :=
  ⟨Contexts.Le.refl _, fun _ h => mem_setInsert.mpr (.inr h), fun _ h => h, fun _ h => h⟩

theorem le_setWork (w : Walk) (ks : List Key) : Le w { w with work := ks } :=
  ⟨Contexts.Le.refl _, fun _ h => h, fun _ h => h, fun _ h => h⟩

theorem le_clearChanged (w : Walk) : Le w { w with rootsChanged := false } :=
  ⟨Contexts.Le.refl _, fun _ h => h, fun _ h => h, fun _ h => h⟩

theorem le_setCtxs (w : Walk) {c : Contexts} (h : w.ctxs.Le c) : Le w { w with ctxs := c } :=
  ⟨h, fun _ h => h, fun _ h => h, fun _ h => h⟩

theorem le_addRoot (w : Walk) (r : Word) : Le w (w.addRoot r) := by
  unfold addRoot
  split_ifs
  · exact Le.refl w
  · exact ⟨Contexts.Le.refl _, fun _ h => h, fun _ h => h, fun _ h => mem_setInsert.mpr (.inr h)⟩

structure Enqueued (w : Walk) (ks : List Key) (w' : Walk) : Prop where
  ctxs : w'.ctxs = w.ctxs
  roots : w'.roots = w.roots
  walked : w'.walked = w.walked
  rootsChanged : w'.rootsChanged = w.rootsChanged
  leaders : ∀ k, k ∈ w'.leaders ↔ k ∈ w.leaders ∨ k ∈ ks
  work : ∀ k, k ∈ w'.work → k ∈ w.work ∨ k ∈ ks
  workKept : ∀ k ∈ w.work, k ∈ w'.work
  fresh : ∀ k ∈ w'.leaders, k ∈ w.leaders ∨ k ∈ w'.work
  nodup : w.leaders.Nodup → w'.leaders.Nodup
  debt : w'.work.length + w.leaders.length = w.work.length + w'.leaders.length

theorem Enqueued.refl (w : Walk) : Enqueued w [] w where
  ctxs := rfl
  roots := rfl
  walked := rfl
  rootsChanged := rfl
  leaders k := by simp only [List.not_mem_nil, or_false]
  work k hk := .inl hk
  workKept k hk := hk
  fresh k hk := .inl hk
  nodup := id
  debt := rfl

theorem Enqueued.trans {u v w : Walk} {ks ls : List Key} (h : Enqueued u ks v)
    (h' : Enqueued v ls w) : Enqueued u (ks ++ ls) w where
  ctxs := h'.ctxs.trans h.ctxs
  roots := h'.roots.trans h.roots
  walked := h'.walked.trans h.walked
  rootsChanged := h'.rootsChanged.trans h.rootsChanged
  leaders k := by rw [h'.leaders, h.leaders, List.mem_append, or_assoc]
  work k hk := by
    rw [List.mem_append, ← or_assoc]
    exact (h'.work k hk).imp_left (h.work k)
  workKept k hk := h'.workKept k (h.workKept k hk)
  fresh k hk := by
    rcases h'.fresh k hk with hv | hw
    · exact (h.fresh k hv).imp_right (h'.workKept k)
    · exact .inr hw
  nodup hn := h'.nodup (h.nodup hn)
  debt := by
    have hd := h.debt
    have hd' := h'.debt
    omega

theorem enqueued_enqueue (w : Walk) (k : Key) : Enqueued w [k] (w.enqueue k) := by
  by_cases hk : k ∈ w.leaders
  · -- a leader already: nothing changes
    have he : w.enqueue k = w := if_pos hk
    rw [he]
    refine ⟨rfl, rfl, rfl, rfl, ?_, fun l hl => .inl hl, fun l hl => hl, fun l hl => .inl hl, id, rfl⟩
    intro l
    rw [List.mem_singleton]
    constructor
    · exact .inl
    · rintro (hl | rfl)
      · exact hl
      · exact hk
  · have he : w.enqueue k =
        { w with leaders := setInsert Key.leb k w.leaders, work := k :: w.work } := if_neg hk
    rw [he]
    refine ⟨rfl, rfl, rfl, rfl, ?_, ?_, fun l hl => List.mem_cons_of_mem _ hl, ?_, nodup_setInsert, ?_⟩
    · intro l
      rw [mem_setInsert, List.mem_singleton, or_comm]
    · intro l hl
      rw [List.mem_singleton, or_comm]
      exact List.mem_cons.mp hl
    · intro l hl
      rcases mem_setInsert.mp hl with rfl | hl
      · exact .inr (List.mem_cons_self ..)
      · exact .inl hl
    · simp only [length_setInsert hk, List.length_cons]
      omega

theorem enqueued_foldl (ks : List Key) (w : Walk) : Enqueued w ks (ks.foldl enqueue w) := by
  induction ks generalizing w with
  | nil => exact .refl w
  | cons k ks ih => exact (enqueued_enqueue w k).trans (ih (w.enqueue k))

/-- A round offers every root as a leader in context 0. -/
theorem enqueued_round (w : Walk) :
    Enqueued { w with rootsChanged := false } (w.roots.map fun r => (r, 0))
      (w.roots.foldl (fun (w : Walk) r => w.enqueue (r, 0)) { w with rootsChanged := false }) := by
  have he := enqueued_foldl (w.roots.map fun r => (r, 0)) { w with rootsChanged := false }
  rwa [List.foldl_map] at he

theorem Enqueued.le {w w' : Walk} {ks : List Key} (h : Enqueued w ks w') : Le w w' :=
  ⟨h.ctxs ▸ Contexts.Le.refl _, fun k hk => (h.leaders k).mpr (.inl hk),
    fun _ hk => h.walked ▸ hk, fun _ hr => h.roots ▸ hr⟩

def Seen (cur : Option Key) (w : Walk) (k : Key) : Prop := k ∈ w.walked ∨ cur = some k

/-- What the instruction at `k` can go on to is there: the next pair for a straight-line
instruction, every successor leader for a transfer. -/
structure ClosedAt (imem : Image) (cur : Option Key) (w : Walk) (k : Key) : Prop where
  straight : ∀ i, imem.StraightAt k.1 i → Seen cur w ((k.1 + 4) &&& 0xffc, k.2)
  transfer : ∀ i d, imem.TransferAt k.1 i d → ∃ tcx ret,
    targetCtx w.ctxs i k.2 i.link = (w.ctxs, tcx) ∧ returnKeys w.ctxs i k.2 = some ret ∧
    (∀ t ∈ i.staticTargets, (t, tcx) ∈ w.leaders) ∧
    (i.fallsThrough → (i.link, k.2) ∈ w.leaders) ∧ ∀ l ∈ ret, l ∈ w.leaders

structure Inv (imem : Image) (cur : Option Key) (w : Walk) : Prop where
  wf : w.ctxs.WF
  nodup : w.leaders.Nodup
  leaders_ctx : ∀ k ∈ w.leaders, k.2 < w.ctxs.contexts.length
  walked_ctx : ∀ k ∈ w.walked, k.2 < w.ctxs.contexts.length
  walked_addr : ∀ k ∈ w.walked, k.1 &&& 0xffc = k.1
  work_sub : ∀ k ∈ w.work, k ∈ w.leaders
  started : ∀ k ∈ w.leaders, k ∈ w.work ∨ Seen cur w (k.1 &&& 0xffc, k.2)
  closed : ∀ k ∈ w.walked, ClosedAt imem cur w k
  /-- No context is a ring of straight-line code without a leader. -/
  exits : ∀ cx, ∃ a, a &&& 0xffc = a ∧ ((a, cx) ∉ w.walked ∨ (a, cx) ∈ w.leaders ∨
    (∀ i, ¬ imem.StraightAt a i) ∨ cur = some (a, cx))

theorem targetCtx_of_le {c d : Contexts} (hc : c.WF) (hd : d.WF) (hle : c.Le d) {i : RspInsn}
    {cx : ℕ} (hcx : cx < c.contexts.length) {link : Word} {tcx : ℕ}
    (h : targetCtx c i cx link = (c, tcx)) : targetCtx d i cx link = (d, tcx) := by
  unfold targetCtx at h ⊢
  split_ifs at h ⊢ with hcall
  · have h1 : (c.pushCtx cx link).1 = c := congrArg Prod.fst h
    have h2 : (c.pushCtx cx link).2 = tcx := congrArg Prod.snd h
    have hle' : Contexts.Le (c.pushCtx cx link).1 d := by rwa [h1]
    exact (Contexts.pushCtx_of_le hc hd hcx hle').trans (by rw [h2])
  · rw [Prod.mk.injEq] at h ⊢
    exact ⟨rfl, h.2⟩

theorem returnKeys_of_le {c d : Contexts} (hc : c.WF) (hd : d.WF) (hle : c.Le d) {i : RspInsn}
    {cx : ℕ} (hcx : cx < c.contexts.length) {ret : List Key}
    (h : returnKeys c i cx = some ret) : returnKeys d i cx = some ret := by
  unfold returnKeys at h ⊢
  rw [hle.str hcx]
  split_ifs at h ⊢ with hret
  · split at h
    · rename_i back id hback hpop
      rw [hback, Contexts.popCtx_of_le hc hd hle hcx hpop]
      exact h
    · cases h
  · exact h

theorem ClosedAt.mono {cur cur' : Option Key} {v w : Walk} {k : Key} (h : ClosedAt imem cur v k)
    (hle : Le v w) (hv : v.ctxs.WF) (hw : w.ctxs.WF) (hk : k.2 < v.ctxs.contexts.length)
    (hseen : ∀ l, Seen cur v l → Seen cur' w l) : ClosedAt imem cur' w k where
  straight i hi := hseen _ (h.straight i hi)
  transfer i d hi := by
    obtain ⟨tcx, ret, htgt, hret, hst, hft, hrs⟩ := h.transfer i d hi
    refine ⟨tcx, ret, targetCtx_of_le hv hw hle.ctxs hk htgt,
      returnKeys_of_le hv hw hle.ctxs hk hret, ?_, ?_, ?_⟩
    · exact fun t ht => hle.leaders _ (hst t ht)
    · exact fun hf => hle.leaders _ (hft hf)
    · exact fun l hl => hle.leaders _ (hrs l hl)

/-- The cursor reached a pair already walked. -/
theorem Inv.join (h : Inv imem (some (a, cx)) w) (hm : (a, cx) ∈ w.walked) :
    Inv imem none (w.markLeader (a, cx)) := by
  have hle := le_markLeader w (a, cx)
  have hseen : ∀ l, Seen (some (a, cx)) w l → Seen none (w.markLeader (a, cx)) l := by
    rintro l (hl | hl)
    · exact .inl hl
    · exact .inl (Option.some.inj hl ▸ hm)
  refine ⟨h.wf, nodup_setInsert h.nodup, ?_, h.walked_ctx, h.walked_addr, ?_, ?_, ?_, ?_⟩
  · intro k hk
    rcases mem_setInsert.mp hk with rfl | hk
    · exact h.walked_ctx _ hm
    · exact h.leaders_ctx k hk
  · exact fun k hk => hle.leaders k (h.work_sub k hk)
  · intro k hk
    rcases mem_setInsert.mp hk with rfl | hk
    · right
      rw [h.walked_addr _ hm]
      exact .inl hm
    · exact (h.started k hk).imp_right (hseen _)
  · exact fun k hk => (h.closed k hk).mono hle h.wf h.wf (h.walked_ctx k hk) hseen
  · intro cx'
    obtain ⟨b, hb, hcase⟩ := h.exits cx'
    refine ⟨b, hb, ?_⟩
    rcases hcase with hw | hl | hs | hcur
    · exact .inl hw
    · exact .inr (.inl (hle.leaders _ hl))
    · exact .inr (.inr (.inl hs))
    · exact .inr (.inl (mem_setInsert.mpr (.inl (Option.some.inj hcur).symm)))

/-- The cursor's pair becomes walked; `cur'` is where the run goes next, if it does. -/
theorem Inv.mark (h : Inv imem (some (a, cx)) w) (ha : a &&& 0xffc = a)
    (hcx : cx < w.ctxs.contexts.length) {cur' : Option Key}
    (hclosed : ClosedAt imem cur' (w.markWalked (a, cx)) (a, cx))
    (hexit : (∀ i, ¬ imem.StraightAt a i) ∨ ∃ b, b &&& 0xffc = b ∧ cur' = some (b, cx)) :
    Inv imem cur' (w.markWalked (a, cx)) := by
  have hle := le_markWalked w (a, cx)
  have hself : (a, cx) ∈ (w.markWalked (a, cx)).walked := mem_setInsert.mpr (.inl rfl)
  have hseen : ∀ l, Seen (some (a, cx)) w l → Seen cur' (w.markWalked (a, cx)) l := by
    rintro l (hl | hl)
    · exact .inl (hle.walked l hl)
    · exact .inl (Option.some.inj hl ▸ hself)
  refine ⟨h.wf, h.nodup, h.leaders_ctx, ?_, ?_, h.work_sub, ?_, ?_, ?_⟩
  · intro k hk
    rcases mem_setInsert.mp hk with rfl | hk
    · exact hcx
    · exact h.walked_ctx k hk
  · intro k hk
    rcases mem_setInsert.mp hk with rfl | hk
    · exact ha
    · exact h.walked_addr k hk
  · exact fun k hk => (h.started k hk).imp_right (hseen _)
  · intro k hk
    rcases mem_setInsert.mp hk with rfl | hk
    · exact hclosed
    · exact (h.closed k hk).mono hle h.wf h.wf (h.walked_ctx k hk) hseen
  · intro cx'
    by_cases hc : cx' = cx
    · subst hc
      rcases hexit with hs | ⟨b, hb, hcur⟩
      · exact ⟨a, ha, .inr (.inr (.inl hs))⟩
      · exact ⟨b, hb, .inr (.inr (.inr hcur))⟩
    · obtain ⟨b, hb, hcase⟩ := h.exits cx'
      refine ⟨b, hb, ?_⟩
      rcases hcase with hw | hl | hs | hcur
      · left
        intro hm
        rcases mem_setInsert.mp hm with heq | hm
        · exact hc (congrArg Prod.snd heq)
        · exact hw hm
      · exact .inr (.inl hl)
      · exact .inr (.inr (.inl hs))
      · exact absurd (congrArg Prod.snd (Option.some.inj hcur)).symm hc

theorem Inv.setCtxs {cur : Option Key} (h : Inv imem cur w) {c : Contexts} (hle : w.ctxs.Le c)
    (hc : c.WF) : Inv imem cur { w with ctxs := c } := by
  have hgrow : Le w { w with ctxs := c } := le_setCtxs w hle
  refine ⟨hc, h.nodup, ?_, ?_, h.walked_addr, h.work_sub, h.started, ?_, h.exits⟩
  · exact fun k hk => lt_of_lt_of_le (h.leaders_ctx k hk) hle.length
  · exact fun k hk => lt_of_lt_of_le (h.walked_ctx k hk) hle.length
  · exact fun k hk => (h.closed k hk).mono hgrow h.wf hc (h.walked_ctx k hk) fun _ hl => hl

theorem Inv.addRoot {cur : Option Key} (h : Inv imem cur w) (r : Word) :
    Inv imem cur (w.addRoot r) := by
  unfold Walk.addRoot
  split_ifs
  · exact h
  · exact ⟨h.wf, h.nodup, h.leaders_ctx, h.walked_ctx, h.walked_addr, h.work_sub, h.started,
      fun k hk => ⟨(h.closed k hk).straight, (h.closed k hk).transfer⟩, h.exits⟩

theorem Inv.enqueued {cur : Option Key} (h : Inv imem cur w) {ks : List Key} {w' : Walk}
    (he : Enqueued w ks w') (hks : ∀ k ∈ ks, k.2 < w.ctxs.contexts.length) : Inv imem cur w' := by
  have hle := he.le
  have hseen : ∀ l, Seen cur w l → Seen cur w' l := fun l hl => hl.imp_left (hle.walked l)
  have hwf : w'.ctxs.WF := he.ctxs ▸ h.wf
  refine ⟨hwf, he.nodup h.nodup, ?_, ?_, ?_, ?_, ?_, ?_, ?_⟩
  · intro k hk
    rw [he.ctxs]
    rcases (he.leaders k).mp hk with hk | hk
    · exact h.leaders_ctx k hk
    · exact hks k hk
  · intro k hk
    rw [he.walked] at hk
    rw [he.ctxs]
    exact h.walked_ctx k hk
  · exact fun k hk => h.walked_addr k (he.walked ▸ hk)
  · intro k hk
    rcases he.work k hk with hk | hk
    · exact hle.leaders k (h.work_sub k hk)
    · exact (he.leaders k).mpr (.inr hk)
  · intro k hk
    rcases he.fresh k hk with hk | hk
    · exact (h.started k hk).imp (he.workKept k) (hseen _)
    · exact .inl hk
  · intro k hk
    rw [he.walked] at hk
    exact (h.closed k hk).mono hle h.wf hwf (h.walked_ctx k hk) hseen
  · intro cx'
    obtain ⟨b, hb, hcase⟩ := h.exits cx'
    refine ⟨b, hb, ?_⟩
    rw [he.walked]
    exact hcase.imp_right (Or.imp_left (hle.leaders _))

theorem targetCtx_spec {c : Contexts} (hc : c.WF) {cx : ℕ} (hcx : cx < c.contexts.length)
    (i : RspInsn) (link : Word) :
    (targetCtx c i cx link).1.WF ∧ c.Le (targetCtx c i cx link).1 ∧
      (targetCtx c i cx link).2 < (targetCtx c i cx link).1.contexts.length := by
  unfold targetCtx
  split_ifs
  · exact ⟨(hc.pushCtx hcx link).1, Contexts.pushCtx_le c cx link, (hc.pushCtx hcx link).2⟩
  · exact ⟨hc, Contexts.Le.refl c, hcx⟩

theorem targetCtx_idem {c : Contexts} (hc : c.WF) {cx : ℕ} (hcx : cx < c.contexts.length)
    (i : RspInsn) (link : Word) :
    targetCtx (targetCtx c i cx link).1 i cx link = targetCtx c i cx link := by
  unfold targetCtx
  split_ifs
  · exact Contexts.pushCtx_of_le hc (hc.pushCtx hcx link).1 hcx (Contexts.Le.refl _)
  · rfl

/-- No pop misses: the table has the caller of every context. -/
theorem returnKeys_isSome {c : Contexts} (hc : c.WF) {cx : ℕ} (hcx : cx < c.contexts.length)
    (i : RspInsn) : ∃ ret, returnKeys c i cx = some ret ∧ ∀ k ∈ ret, k.2 < c.contexts.length := by
  unfold returnKeys
  split_ifs with h
  · obtain ⟨j, hpop, hj, -⟩ := hc.popCtx_isSome hcx
    have hne := hc.str_ne_nil hcx h.2
    rw [List.getLast?_eq_getLast_of_ne_nil hne, hpop]
    exact ⟨_, rfl, fun k hk => by rw [List.mem_singleton.mp hk]; exact hj⟩
  · exact ⟨[], rfl, fun k hk => by cases hk⟩

theorem enqueue_markWalked (w : Walk) (k l : Key) :
    (w.markWalked k).enqueue l = (w.enqueue l).markWalked k := by
  by_cases h : l ∈ w.leaders
  · have h' : l ∈ (w.markWalked k).leaders := h
    rw [enqueue, enqueue, if_pos h, if_pos h']
  · have h' : l ∉ (w.markWalked k).leaders := h
    rw [enqueue, enqueue, if_neg h, if_neg h']
    rfl

theorem foldl_enqueue_markWalked (w : Walk) (k : Key) (ks : List Key) :
    ks.foldl enqueue (w.markWalked k) = (ks.foldl enqueue w).markWalked k := by
  induction ks generalizing w with
  | nil => rfl
  | cons l ks ih => rw [List.foldl_cons, List.foldl_cons, enqueue_markWalked, ih]

theorem transfer_markWalked (w : Walk) (k : Key) (i : RspInsn) (a : Word) (cx : ℕ) :
    (w.markWalked k).transfer i a cx = (w.transfer i a cx).map fun w' => w'.markWalked k := by
  have hroot (v : Walk) (r : Word) : (v.markWalked k).addRoot r = (v.addRoot r).markWalked k := by
    by_cases h : r ∈ v.roots
    · have h' : r ∈ (v.markWalked k).roots := h
      rw [addRoot, addRoot, if_pos h, if_pos h']
    · have h' : r ∉ (v.markWalked k).roots := h
      rw [addRoot, addRoot, if_neg h, if_neg h']
      rfl
  have hctxs : (w.markWalked k).ctxs = w.ctxs := rfl
  simp only [transfer, hctxs]
  cases returnKeys (targetCtx w.ctxs i cx ((a + 8) &&& 0xffc)).1 i cx with
  | none => rfl
  | some ret =>
    have hset (c : Contexts) : ({ w.markWalked k with ctxs := c } : Walk) =
        ({ w with ctxs := c } : Walk).markWalked k := rfl
    simp only [Option.map_some, hset, hroot]
    split_ifs <;> rw [foldl_enqueue_markWalked]

def succKeys (i : RspInsn) (cx tcx : ℕ) (ret : List Key) : List Key :=
  i.staticTargets.map (fun t => (t, tcx)) ++
    (if i.fallsThrough then [(i.link, cx)] else []) ++ ret

theorem transfer_eq {i : RspInsn} (hi : i.addr = a) {ret : List Key} {c : Contexts} {tcx : ℕ}
    (ht : targetCtx w.ctxs i cx i.link = (c, tcx)) (hr : returnKeys c i cx = some ret) :
    w.transfer i a cx = some ((succKeys i cx tcx ret).foldl enqueue
      (if i.makesLinkRoot then ({ w with ctxs := c } : Walk).addRoot i.link
        else { w with ctxs := c })) := by
  have hl : (a + 8) &&& 0xffc = i.link := by rw [RspInsn.link, hi]
  simp only [transfer, hl, ht, hr, succKeys]

noncomputable def allWords : Finset Word := (Set.finite_univ (α := Word)).toFinset

theorem mem_allWords (r : Word) : r ∈ allWords := (Set.Finite.mem_toFinset _).mpr (Set.mem_univ r)

/-- Call strings are short, so there are finitely many contexts. -/
noncomputable def maxContexts : ℕ :=
  ((List.finite_length_le Word maxCallDepth).toFinset).card

noncomputable def allKeys : Finset Key := allWords ×ˢ Finset.range maxContexts

theorem contexts_le {c : Contexts} (h : c.WF) : c.contexts.length ≤ maxContexts := by
  apply length_le_of_subset h.nodup
  intro cs hcs
  rw [Set.Finite.mem_toFinset]
  exact h.depth cs hcs

theorem mem_allKeys {c : Contexts} (h : c.WF) {k : Key} (hk : k.2 < c.contexts.length) :
    k ∈ allKeys := by
  rw [allKeys, Finset.mem_product, Finset.mem_range]
  exact ⟨mem_allWords _, lt_of_lt_of_le hk (contexts_le h)⟩

theorem Inv.leaders_length {cur : Option Key} (h : Inv imem cur w) :
    w.leaders.length ≤ allKeys.card :=
  length_le_of_subset h.nodup fun k hk => mem_allKeys h.wf (h.leaders_ctx k hk)

/-- Work waiting and leaders still to come: an enqueue moves one to the other. -/
noncomputable def debt (w : Walk) : ℕ := w.work.length + (allKeys.card - w.leaders.length)

noncomputable def unwalked (w : Walk) : ℕ := (allKeys \ w.walked.toFinset).card

noncomputable def rootsLeft (w : Walk) : ℕ :=
  (allWords \ w.roots.toFinset).card + if w.rootsChanged then 1 else 0

/-- Unless a round is due, every root is a leader in context 0. -/
def RootsLed (w : Walk) : Prop := w.rootsChanged = false → ∀ r ∈ w.roots, (r, 0) ∈ w.leaders

/-- `w` came from `v` without adding to what is left to do. -/
structure Spent (v w : Walk) : Prop where
  le : Le v w
  debt : w.debt ≤ v.debt
  rootsLeft : w.rootsLeft ≤ v.rootsLeft
  led : v.RootsLed → w.RootsLed

theorem Spent.refl (w : Walk) : Spent w w := ⟨Le.refl w, le_rfl, le_rfl, id⟩

theorem Spent.trans {u v w : Walk} (h : Spent u v) (h' : Spent v w) : Spent u w :=
  ⟨h.le.trans h'.le, h'.debt.trans h.debt, h'.rootsLeft.trans h.rootsLeft, h'.led ∘ h.led⟩

theorem card_sdiff_insert {α : Type*} [DecidableEq α] {le : α → α → Bool} {s : Finset α}
    {l : List α} {x : α} (hx : x ∈ s) (hl : x ∉ l) :
    (s \ (setInsert le x l).toFinset).card + 1 = (s \ l.toFinset).card := by
  have heq : s \ (setInsert le x l).toFinset = (s \ l.toFinset).erase x := by
    ext y
    simp only [Finset.mem_sdiff, List.mem_toFinset, mem_setInsert, Finset.mem_erase]
    tauto
  rw [heq]
  apply Finset.card_erase_add_one
  simp only [Finset.mem_sdiff, List.mem_toFinset]
  exact ⟨hx, hl⟩

theorem spent_markWalked (w : Walk) (k : Key) : Spent w (w.markWalked k) :=
  ⟨le_markWalked w k, le_rfl, le_rfl, id⟩

theorem spent_markLeader (w : Walk) (k : Key) : Spent w (w.markLeader k) := by
  refine ⟨le_markLeader w k, ?_, le_rfl, fun h hc r hr => mem_setInsert.mpr (.inr (h hc r hr))⟩
  have hlen : w.leaders.length ≤ (setInsert Key.leb k w.leaders).length := by
    by_cases hk : k ∈ w.leaders
    · rw [setInsert_of_mem hk]
    · rw [length_setInsert hk]
      omega
  simp only [Walk.debt, markLeader]
  omega

theorem spent_addRoot (w : Walk) (r : Word) : Spent w (w.addRoot r) := by
  refine ⟨le_addRoot w r, ?_, ?_, ?_⟩
  · unfold addRoot
    split_ifs <;> exact le_rfl
  · unfold addRoot
    split_ifs with h
    · exact le_rfl
    · have hcard := @card_sdiff_insert Word _ Word.leb _ _ _ (mem_allWords r) h
      simp only [Walk.rootsLeft, if_true]
      omega
  · intro h
    unfold addRoot
    split_ifs
    · exact h
    · intro hc
      cases hc

theorem spent_enqueued {cur : Option Key} {w' : Walk} {ks : List Key} (h : Inv imem cur w')
    (he : Enqueued w ks w') : Spent w w' := by
  refine ⟨he.le, ?_, ?_, ?_⟩
  · have hle := h.leaders_length
    have hd := he.debt
    simp only [Walk.debt]
    omega
  · simp only [Walk.rootsLeft, he.roots, he.rootsChanged]
    exact le_rfl
  · intro hled hc r hr
    rw [he.rootsChanged] at hc
    rw [he.roots] at hr
    exact he.le.leaders _ (hled hc r hr)

theorem unwalked_markWalked {k : Key} (hk : k ∉ w.walked) (hall : k ∈ allKeys) :
    (w.markWalked k).unwalked < w.unwalked := by
  have hcard := @card_sdiff_insert Key _ Key.leb _ _ _ hall hk
  simp only [unwalked, markWalked]
  omega

/-- A transfer makes its successors leaders; the cursor stays. -/
theorem Inv.transfer {cur : Option Key} (h : Inv imem cur w) {i d : RspInsn}
    (ht : imem.TransferAt a i d) (ha : a &&& 0xffc = a) (hcx : cx < w.ctxs.contexts.length) :
    ∃ w', w.transfer i a cx = some w' ∧ Inv imem cur w' ∧ Spent w w' ∧
      ∃ tcx ret, targetCtx w'.ctxs i cx i.link = (w'.ctxs, tcx) ∧
        returnKeys w'.ctxs i cx = some ret ∧ ∀ k ∈ succKeys i cx tcx ret, k ∈ w'.leaders := by
  have hi : i.addr = a := (Image.at_addr ht.1).trans ha
  obtain ⟨hwf, hle, htcx⟩ := targetCtx_spec h.wf hcx i i.link
  have hidem := targetCtx_idem h.wf hcx i i.link
  rcases htgt : targetCtx w.ctxs i cx i.link with ⟨c, tcx⟩
  rw [htgt] at hwf hle htcx hidem
  have hcx' : cx < c.contexts.length := lt_of_lt_of_le hcx hle.length
  obtain ⟨ret, hret, hretlt⟩ := returnKeys_isSome hwf hcx' i
  rw [transfer_eq hi htgt hret]
  have hset : Inv imem cur { w with ctxs := c } := h.setCtxs hle hwf
  have hsetSpent : Spent w { w with ctxs := c } :=
    ⟨le_setCtxs w hle, le_rfl, le_rfl, id⟩
  have hroot : ∃ v, (if i.makesLinkRoot then ({ w with ctxs := c } : Walk).addRoot i.link
      else { w with ctxs := c }) = v ∧ v.ctxs = c ∧ Inv imem cur v ∧ Spent w v := by
    split_ifs
    · refine ⟨_, rfl, ?_, hset.addRoot _, hsetSpent.trans (spent_addRoot _ _)⟩
      unfold Walk.addRoot
      split_ifs <;> rfl
    · exact ⟨_, rfl, rfl, hset, hsetSpent⟩
  obtain ⟨v, hv, hvc, hvinv, hvspent⟩ := hroot
  rw [hv]
  have he := enqueued_foldl (succKeys i cx tcx ret) v
  have hks : ∀ k ∈ succKeys i cx tcx ret, k.2 < v.ctxs.contexts.length := by
    intro k hk
    rw [hvc]
    rcases List.mem_append.mp hk with hk | hk
    · rcases List.mem_append.mp hk with hk | hk
      · obtain ⟨t, -, rfl⟩ := List.mem_map.mp hk
        exact htcx
      · split_ifs at hk
        · rw [List.mem_singleton.mp hk]
          exact hcx'
        · cases hk
    · exact hretlt k hk
  have hinv := hvinv.enqueued he hks
  have hctxs : ((succKeys i cx tcx ret).foldl enqueue v).ctxs = c := he.ctxs.trans hvc
  refine ⟨_, rfl, hinv, hvspent.trans (spent_enqueued hinv he), tcx, ret, ?_, ?_, ?_⟩
  · rw [hctxs]
    exact hidem
  · rw [hctxs]
    exact hret
  · exact fun k hk => (he.leaders k).mpr (.inr hk)

theorem ClosedAt.of_succKeys {cur : Option Key} {i d : RspInsn} (ht : imem.TransferAt a i d)
    {tcx : ℕ} {ret : List Key} (htgt : targetCtx w.ctxs i cx i.link = (w.ctxs, tcx))
    (hret : returnKeys w.ctxs i cx = some ret) (hs : ∀ k ∈ succKeys i cx tcx ret, k ∈ w.leaders) :
    ClosedAt imem cur w (a, cx) where
  straight j hj := absurd ht hj.not_transfer
  transfer j e hj := by
    obtain rfl : j = i := Option.some.inj (hj.1.symm.trans ht.1)
    refine ⟨tcx, ret, htgt, hret, ?_, ?_, ?_⟩
    · intro t hmem
      apply hs
      exact List.mem_append_left _ (List.mem_append_left _ (List.mem_map_of_mem hmem))
    · intro hf
      apply hs
      apply List.mem_append_left
      apply List.mem_append_right
      rw [if_pos hf]
      exact List.mem_singleton_self _
    · intro l hl
      apply hs
      exact List.mem_append_right _ hl

theorem ClosedAt.of_no_site {cur : Option Key} (hs : ∀ i, ¬ imem.StraightAt a i)
    (ht : ∀ i d, ¬ imem.TransferAt a i d) : ClosedAt imem cur w (a, cx) :=
  ⟨fun i hi => absurd hi (hs i), fun i d hi => absurd hi (ht i d)⟩

/-- One turn of the innermost loop leaves, or walks one pair more. -/
theorem runBody_step {w₀ : Walk} (h : Inv imem (some (a, cx)) w) (hsp : Spent w₀ w)
    (ha : a &&& 0xffc = a) (hcx : cx < w.ctxs.contexts.length) :
    (∃ w', runBody imem cx (w, a) = some (.inr w') ∧ Inv imem none w' ∧ Spent w₀ w') ∨
    ∃ w' a', runBody imem cx (w, a) = some (.inl (w', a')) ∧ Inv imem (some (a', cx)) w' ∧
      Spent w₀ w' ∧ a' &&& 0xffc = a' ∧ cx < w'.ctxs.contexts.length ∧ w'.unwalked < w.unwalked := by
  by_cases hm : (a, cx) ∈ w.walked
  · exact .inl ⟨_, runBody_walked hm, h.join hm, hsp.trans (spent_markLeader w _)⟩
  rcases imem.site a with hdata | ⟨i, hb⟩ | ⟨i, d, ht⟩ | ⟨i, hs⟩
  · have hno : ∀ i, ¬ imem.StraightAt a i := by
      intro i hi
      rw [hi.translatable] at hdata
      cases hdata
    have hno' : ∀ i d, ¬ imem.TransferAt a i d := by
      intro i d hi
      rw [hi.translatable] at hdata
      cases hdata
    exact .inl ⟨_, runBody_data hm hdata, h.mark ha hcx (.of_no_site hno hno') (.inl hno),
      hsp.trans (spent_markWalked w _)⟩
  · have hno : ∀ j, ¬ imem.StraightAt a j := fun j hj => hj.not_break hb
    exact .inl ⟨_, runBody_break hm hb,
      h.mark ha hcx (.of_no_site hno fun j d => hb.not_transfer) (.inl hno),
      hsp.trans (spent_markWalked w _)⟩
  · have hno : ∀ j, ¬ imem.StraightAt a j := fun j hj => hj.not_transfer ht
    obtain ⟨w', hw', hinv, hspent, tcx, ret, htgt, hret, hsucc⟩ := h.transfer ht ha hcx
    have hcx' : cx < w'.ctxs.contexts.length := lt_of_lt_of_le hcx hspent.le.ctxs.length
    refine .inl ⟨w'.markWalked (a, cx), ?_, ?_, ?_⟩
    · rw [runBody_transfer hm ht, transfer_markWalked, hw']
      rfl
    · exact hinv.mark ha hcx' (.of_succKeys ht htgt hret hsucc) (.inl hno)
    · exact (hsp.trans hspent).trans (spent_markWalked w' _)
  · refine .inr ⟨_, _, runBody_straight hm hs, ?_, hsp.trans (spent_markWalked w _),
      Word.and_ffc_idem _, hcx, unwalked_markWalked hm (mem_allKeys h.wf hcx)⟩
    apply h.mark ha hcx
    -- the next pair is under the cursor, so it counts as walked
    · exact ⟨fun j _ => .inr rfl, fun j d hj => absurd hj hs.not_transfer⟩
    · exact .inr ⟨_, Word.and_ffc_idem _, rfl⟩

theorem run_total (h : Inv imem (some (a, cx)) w) (ha : a &&& 0xffc = a)
    (hcx : cx < w.ctxs.contexts.length) {n : ℕ} (hn : allKeys.card < n) :
    ∃ w', loop (runBody imem cx) n (w, a) = some w' ∧ Inv imem none w' ∧ Spent w w' := by
  have hμ : w.unwalked < n := lt_of_le_of_lt (Finset.card_le_card Finset.sdiff_subset) hn
  refine loop_total
    (fun st => Inv imem (some (st.2, cx)) st.1 ∧ Spent w st.1 ∧ st.2 &&& 0xffc = st.2 ∧
      cx < st.1.ctxs.contexts.length)
    (fun w' => Inv imem none w' ∧ Spent w w') (fun st => st.1.unwalked) ?_
    ⟨h, .refl w, ha, hcx⟩ hμ
  rintro ⟨v, b⟩ ⟨hv, hsp, hb, hlt⟩
  rcases runBody_step hv hsp hb hlt with ⟨w', hw', hpost⟩ | ⟨w', a', hw', hinv, hs, ha', hc, hμ'⟩
  · exact .inl ⟨w', hw', hpost⟩
  · exact .inr ⟨(w', a'), hw', ⟨hinv, hs, ha', hc⟩, hμ'⟩

theorem Inv.pop (h : Inv imem none w) {k : Key} {rest : List Key} (hw : w.work = k :: rest) :
    Inv imem (some (k.1 &&& 0xffc, k.2)) { w with work := rest } := by
  have hseen : ∀ l, Seen none w l → Seen (some (k.1 &&& 0xffc, k.2)) { w with work := rest } l := by
    rintro l (hl | hl)
    · exact .inl hl
    · cases hl
  have hle : Le w { w with work := rest } := le_setWork w rest
  refine ⟨h.wf, h.nodup, h.leaders_ctx, h.walked_ctx, h.walked_addr, ?_, ?_, ?_, ?_⟩
  · intro l hl
    apply h.work_sub
    rw [hw]
    exact List.mem_cons_of_mem _ hl
  · intro l hl
    rcases h.started l hl with hwork | hs
    · rw [hw] at hwork
      rcases List.mem_cons.mp hwork with rfl | hrest
      · exact .inr (.inr rfl)
      · exact .inl hrest
    · exact .inr (hseen _ hs)
  · exact fun l hl => (h.closed l hl).mono hle h.wf h.wf (h.walked_ctx l hl) hseen
  · intro cx'
    obtain ⟨b, hb, hcase⟩ := h.exits cx'
    refine ⟨b, hb, ?_⟩
    rcases hcase with hm | hl | hs | hcur
    · exact .inl hm
    · exact .inr (.inl hl)
    · exact .inr (.inr (.inl hs))
    · cases hcur

/-- The work runs out: each item costs one, and a new one comes with its leader. -/
theorem drain_total (h : Inv imem none w) {n : ℕ} (hn : allKeys.card < n) (hdebt : w.debt < n) :
    ∃ w', loop (drainBody imem n) n w = some w' ∧ Inv imem none w' ∧ Spent w w' ∧ w'.work = [] := by
  refine loop_total (fun v => Inv imem none v ∧ Spent w v)
    (fun w' => Inv imem none w' ∧ Spent w w' ∧ w'.work = []) Walk.debt ?_ ⟨h, .refl w⟩ hdebt
  rintro v ⟨hv, hsp⟩
  cases hwork : v.work with
  | nil => exact .inl ⟨v, by simp only [drainBody, hwork], hv, hsp, hwork⟩
  | cons k rest =>
    have hk : k.2 < v.ctxs.contexts.length := by
      apply hv.leaders_ctx
      apply hv.work_sub
      rw [hwork]
      exact List.mem_cons_self ..
    obtain ⟨w', hw', hinv, hs⟩ := run_total (hv.pop hwork) (Word.and_ffc_idem _) hk hn
    have hpop : ({ v with work := rest } : Walk).debt < v.debt := by
      simp only [Walk.debt, hwork, List.length_cons]
      omega
    have hspent : Spent v w' := (Spent.mk (le_setWork v rest) hpop.le le_rfl id).trans hs
    refine .inr ⟨w', ?_, ⟨hinv, hsp.trans hspent⟩, lt_of_le_of_lt hs.debt hpop⟩
    simp only [drainBody, hwork, hw', Option.map_some]

theorem init_inv (imem : Image) (roots : List Word) : Inv imem none (init roots) := by
  refine ⟨Contexts.init_wf, List.nodup_nil, ?_, ?_, ?_, ?_, ?_, ?_, ?_⟩
  case refine_7 => exact fun _ => ⟨0, rfl, .inl (List.not_mem_nil)⟩
  all_goals
    intro k hk
    cases hk

/-- What the walk leaves, before the roots that are data are erased. -/
structure Done (imem : Image) (w : Walk) : Prop where
  inv : Inv imem none w
  work : w.work = []
  led : ∀ r ∈ w.roots, (r, 0) ∈ w.leaders

/-- A round that is due ends with its roots led, and with fewer roots left. -/
theorem rootsBody_step (h : Inv imem none w) (hwork : w.work = []) (hc : w.rootsChanged = true)
    {n : ℕ} (hn : allKeys.card < n) :
    ∃ w', rootsBody imem n w = some (.inl w') ∧ Inv imem none w' ∧ w'.work = [] ∧ w'.RootsLed ∧
      Le w w' ∧ w'.rootsLeft < w.rootsLeft := by
  have hclear : Inv imem none { w with rootsChanged := false } :=
    ⟨h.wf, h.nodup, h.leaders_ctx, h.walked_ctx, h.walked_addr, h.work_sub, h.started,
      fun k hk => ⟨(h.closed k hk).straight, (h.closed k hk).transfer⟩, h.exits⟩
  have he := enqueued_round w
  have hctx : ∀ k ∈ w.roots.map fun r => ((r, 0) : Key), k.2 < w.ctxs.contexts.length := by
    intro k hk
    obtain ⟨r, -, rfl⟩ := List.mem_map.mp hk
    exact h.wf.pos
  have hinv := hclear.enqueued he hctx
  have hs := spent_enqueued hinv he
  -- no work waits at the start of a round, so what it owes is at most the leaders to come
  have hclearDebt : ({ w with rootsChanged := false } : Walk).debt ≤ allKeys.card := by
    simp only [Walk.debt, hwork, List.length_nil]
    omega
  have hdebt := lt_of_le_of_lt (hs.debt.trans hclearDebt) hn
  obtain ⟨w', hw', hinv', hs', hwork'⟩ := drain_total hinv hn hdebt
  refine ⟨w', ?_, hinv', hwork', ?_, (le_clearChanged w).trans (he.le.trans hs'.le), ?_⟩
  · simp only [rootsBody, hc, if_true, hw', Option.map_some]
  · apply hs'.led
    intro _ r hr
    rw [he.roots] at hr
    exact (he.leaders _).mpr (.inr (List.mem_map.mpr ⟨r, hr, rfl⟩))
  · have hcleared : ({ w with rootsChanged := false } : Walk).rootsLeft < w.rootsLeft := by
      simp only [Walk.rootsLeft, hc, if_true]
      exact Nat.lt_succ_self _
    exact lt_of_le_of_lt (hs'.rootsLeft.trans hs.rootsLeft) hcleared

/-- The rounds end: each but the last one found a new root. -/
theorem rounds_total (imem : Image) (roots : List Word) {n : ℕ}
    (hn : allKeys.card + allWords.card + 1 < n) :
    ∃ w, loop (rootsBody imem n) n (init roots) = some w ∧ Done imem w ∧ Le (init roots) w := by
  have hμ : (init roots).rootsLeft < n := by
    have hcard : (allWords \ roots.toFinset).card ≤ allWords.card :=
      Finset.card_le_card Finset.sdiff_subset
    simp only [rootsLeft, init, if_true]
    omega
  refine loop_total (fun w => Inv imem none w ∧ w.work = [] ∧ w.RootsLed ∧ Le (init roots) w)
    (fun w => Done imem w ∧ Le (init roots) w) Walk.rootsLeft ?_
    ⟨init_inv imem roots, rfl, (fun hc => by cases hc), .refl _⟩ hμ
  rintro w ⟨hw, hwork, hled, hgrown⟩
  by_cases hc : w.rootsChanged = true
  · obtain ⟨w', hw', hinv', hwork', hled', hle, hless⟩ := rootsBody_step hw hwork hc (n := n) (by omega)
    exact .inr ⟨w', hw', ⟨hinv', hwork', hled', hgrown.trans hle⟩, hless⟩
  · have hc' : w.rootsChanged = false := by simpa using hc
    exact .inl ⟨w, by simp only [rootsBody, hc', Bool.false_eq_true, if_false],
      ⟨hw, hwork, hled hc'⟩, hgrown⟩

end Walk

end RspBt
