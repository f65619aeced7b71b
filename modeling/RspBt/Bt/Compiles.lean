import RspBt.Bt.MemoInv

namespace RspBt

open Lib

namespace Walk

variable {imem : Image}

theorem roots_transfer {w w' : Walk} {i : RspInsn} {a : Word} {cx : ℕ}
    (h : w.transfer i a cx = some w') : ∀ r ∈ w.roots, r ∈ w'.roots := by
  intro r hr
  unfold transfer at h
  simp only at h
  cases hret : returnKeys (targetCtx w.ctxs i cx ((a + 8) &&& 0xffc)).1 i cx with
  | none =>
    rw [hret] at h
    cases h
  | some ret =>
    rw [hret] at h
    rw [← Option.some.inj h, (enqueued_foldl _ _).roots]
    split_ifs
    · exact (le_addRoot _ _).roots r hr
    · exact hr

theorem roots_runBody {w : Walk} {a : Word} {cx : ℕ} {x : (Walk × Word) ⊕ Walk}
    (h : runBody imem cx (w, a) = some x) :
    ∀ r ∈ w.roots, r ∈ (x.elim Prod.fst id).roots := by
  intro r hr
  by_cases hw : (a, cx) ∈ w.walked
  · rw [runBody_walked hw] at h
    rwa [← Option.some.inj h]
  · rcases imem.site a with hd | ⟨i, hb⟩ | ⟨i, d, ht⟩ | ⟨i, hs⟩
    · rw [runBody_data hw hd] at h
      rwa [← Option.some.inj h]
    · rw [runBody_break hw hb] at h
      rwa [← Option.some.inj h]
    · rw [runBody_transfer hw ht] at h
      obtain ⟨w', hw', rfl⟩ := Option.map_eq_some_iff.mp h
      exact roots_transfer hw' r hr
    · rw [runBody_straight hw hs] at h
      rwa [← Option.some.inj h]

theorem roots_drainBody {n : ℕ} {w : Walk} {x : Walk ⊕ Walk} (h : drainBody imem n w = some x) :
    ∀ r ∈ w.roots, r ∈ (x.elim id id).roots := by
  intro r hr
  unfold drainBody at h
  cases hk : w.work with
  | nil =>
    rw [hk] at h
    rwa [← Option.some.inj h]
  | cons k rest =>
    rw [hk] at h
    obtain ⟨w', hw', rfl⟩ := Option.map_eq_some_iff.mp h
    obtain ⟨⟨v, a⟩, hv, hbody⟩ := loop_inv (fun st : Walk × Word => r ∈ st.1.roots)
      (fun s s' hs hb => roots_runBody hb r hs) hr hw'
    exact roots_runBody hbody r hv

theorem roots_rootsBody {n : ℕ} {w : Walk} {x : Walk ⊕ Walk} (h : rootsBody imem n w = some x) :
    ∀ r ∈ w.roots, r ∈ (x.elim id id).roots := by
  intro r hr
  unfold rootsBody at h
  by_cases hc : w.rootsChanged
  · rw [if_pos hc] at h
    obtain ⟨w', hw', rfl⟩ := Option.map_eq_some_iff.mp h
    have hstart : r ∈ (w.roots.foldl (fun (w : Walk) r => w.enqueue (r, 0))
        { w with rootsChanged := false }).roots := by
      rw [(enqueued_round w).roots]
      exact hr
    obtain ⟨v, hv, hbody⟩ := loop_inv (fun v : Walk => r ∈ v.roots)
      (fun s s' hs hb => roots_drainBody hb r hs) hstart hw'
    exact roots_drainBody hbody r hv
  · rw [if_neg hc] at h
    rwa [← Option.some.inj h]

theorem roots_walk {n : ℕ} {roots : List Word} {w : Walk} (h : walk imem n roots = some w) :
    (∀ r ∈ roots, imem.translatable r → r ∈ w.roots) ∧ ∀ r ∈ w.roots, imem.translatable r := by
  obtain ⟨u, hu, rfl⟩ := Option.map_eq_some_iff.mp h
  constructor
  · intro r hr htr
    obtain ⟨v, hv, hbody⟩ := loop_inv (fun v : Walk => r ∈ v.roots)
      (fun s s' hs hb => roots_rootsBody hb r hs) (show r ∈ (init roots).roots from hr) hu
    exact List.mem_filter.mpr ⟨roots_rootsBody hbody r hv, htr⟩
  · exact fun r hr => (List.mem_filter.mp hr).2

end Walk

theorem compile_roots {imem : Image} {n : ℕ} {roots : List Word} {T : Translation}
    (h : compile imem n roots = some T) :
    (∀ r ∈ roots, imem.translatable r → r ∈ T.roots) ∧ ∀ r ∈ T.roots, imem.translatable r := by
  obtain ⟨-, w, hw, hroots⟩ := compile_walked h
  rw [hroots]
  exact Walk.roots_walk hw

namespace ImageT

theorem mem_insertRoot {img : ImageT} {a r : Word} :
    r ∈ (img.insertRoot a).roots ↔ r ∈ img.roots ∨ r = a &&& 0xffc := by
  unfold insertRoot
  split_ifs with h
  · constructor
    · exact Or.inl
    · rintro (hr | rfl)
      · exact hr
      · exact h
  · simp only [mem_setInsert, or_comm]

theorem mem_insertRoots (l : List Word) (img : ImageT) {r : Word} :
    r ∈ (l.foldl insertRoot img).roots ↔ r ∈ img.roots ∨ r ∈ l.map (· &&& 0xffc) := by
  induction l generalizing img with
  | nil => simp only [List.foldl_nil, List.map_nil, List.not_mem_nil, or_false]
  | cons a l ih => rw [List.foldl_cons, ih, mem_insertRoot, List.map_cons, List.mem_cons, or_assoc]

theorem insertRoots_of_mem (l : List Word) (img : ImageT) (h : ∀ r ∈ l, r &&& 0xffc ∈ img.roots) :
    l.foldl insertRoot img = img := by
  induction l with
  | nil => rfl
  | cons a l ih =>
    rw [List.forall_mem_cons] at h
    rw [List.foldl_cons, insertRoot_of_mem h.1, ih h.2]

end ImageT

namespace Memo

variable {p : Memo} {imem : Image} {cur : Word} {hintRoots : List Word}

/-- Every entry lies under the hash of the bytes it holds. -/
def Keyed (p : Memo) : Prop := ∀ h img, p.cache h = some img → h = fnv1a64 img.imem.bytes

/-- The entry of `imem`, value-initialised where there is none. -/
def held (p : Memo) (imem : Image) : ImageT := (p.cache (fnv1a64 imem.bytes)).getD .empty

theorem keyed_init : init.Keyed := by
  intro h img hc
  cases hc

theorem Keyed.find (hp : p.Keyed) (imem : Image) :
    p.find imem = (fnv1a64 imem.bytes, { p.held imem with imem := imem }) := by
  unfold Memo.find
  cases hl : p.lastImage with
  | none => rfl
  | some x =>
    obtain ⟨h, img⟩ := x
    by_cases him : img.imem = imem
    · obtain ⟨k, -, hk⟩ := Option.bind_eq_some_iff.mp hl
      obtain ⟨img', himg, hx⟩ := Option.map_eq_some_iff.mp hk
      obtain ⟨rfl, himg'⟩ := Prod.mk.inj hx
      rw [himg'] at himg
      have hkey := hp _ _ himg
      have hheld : p.held img.imem = img := by
        rw [held, ← hkey, himg, Option.getD_some]
      rw [← him, hheld, hkey]
      exact if_pos rfl
    · simp only [if_neg him]
      rfl

theorem Keyed.store (hp : p.Keyed) {h : BitVec 64} {img : ImageT} (hi : h = fnv1a64 img.imem.bytes) :
    (p.store h img).Keyed := by
  intro h' img' hc
  by_cases heq : h' = h
  · rw [heq, store_self] at hc
    rw [heq, hi, Option.some.inj hc]
  · rw [store_other p heq] at hc
    exact hp h' img' hc

theorem held_store (p : Memo) (imem : Image) (img : ImageT) :
    (p.store (fnv1a64 imem.bytes) img).held imem = img := by
  rw [held, store_self, Option.getD_some]

theorem held_store_other (p : Memo) {imem imem' : Image} (img : ImageT)
    (hne : fnv1a64 imem.bytes ≠ fnv1a64 imem'.bytes) :
    (p.store (fnv1a64 imem'.bytes) img).held imem = p.held imem := by
  rw [held, store_other p hne, held]

/-- The call's roots were known and the entry fresh, or the image was compiled. -/
theorem Keyed.serve_cases (hp : p.Keyed) {n : ℕ} {img : ImageT} {compiled : Bool}
    (h : p.serve n imem cur hintRoots = some (img, compiled)) :
    img.imem = imem ∧
    ((compiled = false ∧ img.roots = (p.held imem).roots ∧ (p.held imem).stale = false ∧
        img.stale = false ∧ ∀ r ∈ cur :: hintRoots, r &&& 0xffc ∈ (p.held imem).roots) ∨
      (compiled = true ∧ img.stale = false ∧ (∀ r ∈ img.roots, imem.translatable r) ∧
        (∀ r, r ∈ (p.held imem).roots ∨ r ∈ (cur :: hintRoots).map (· &&& 0xffc) →
          imem.translatable r → r ∈ img.roots) ∧
        ((p.held imem).stale = true ∨ ∃ r ∈ cur :: hintRoots, r &&& 0xffc ∉ (p.held imem).roots))) := by
  have hoffer : p.offer imem cur hintRoots =
      (cur :: hintRoots).foldl ImageT.insertRoot { p.held imem with imem := imem } := by
    rw [offer, hp.find]
    rfl
  have hspec := ImageT.insertRoots_spec (cur :: hintRoots) { p.held imem with imem := imem }
  have hfresh := ImageT.insertRoots_fresh (cur :: hintRoots) { p.held imem with imem := imem }
  have hmem := fun r => ImageT.mem_insertRoots (cur :: hintRoots)
    { p.held imem with imem := imem } (r := r)
  rw [← hoffer] at hspec hfresh hmem
  unfold serve at h
  cases hst : (p.offer imem cur hintRoots).stale with
  | true =>
    simp only [hst, if_true] at h
    obtain ⟨img', hcomp, himg⟩ := Option.map_eq_some_iff.mp h
    obtain ⟨rfl, rfl⟩ := Prod.mk.inj himg
    obtain ⟨T, hT, rfl⟩ := Option.map_eq_some_iff.mp hcomp
    -- a compile keeps the roots that are code, and was due for one of two reasons
    obtain ⟨hkept, htr⟩ := compile_roots hT
    refine ⟨hspec.2.1, .inr ⟨rfl, rfl, htr, fun r hr ht => hkept r ((hmem r).mpr hr) ht, ?_⟩⟩
    by_contra hno
    push Not at hno
    have hf := hfresh.mpr ⟨by simpa using hno.1, hno.2⟩
    rw [hst] at hf
    cases hf
  | false =>
    simp only [hst, Bool.false_eq_true, if_false] at h
    obtain ⟨rfl, rfl⟩ := Prod.mk.inj (Option.some.inj h)
    obtain ⟨hheld, hknown⟩ := hfresh.mp hst
    refine ⟨hspec.2.1, .inl ⟨rfl, ?_, hheld, hst, hknown⟩⟩
    rw [hoffer, ImageT.insertRoots_of_mem _ _ hknown]

end Memo

/-- The host, the words that were offered as roots of one image, and its compiles; no host when
a call does not come back. -/
structure Session where
  host : Option Host
  offered : Finset Word
  compiles : ℕ

namespace Session

def init : Session where
  host := some (.idle Memo.init)
  offered := ∅
  compiles := 0

def words (l : List Word) : Finset Word := (l.map (· &&& 0xffc)).toFinset

def after (hintRoots : List Word) : (Memo × RspT × Word) ⊕ (Memo × RspT) → Host
  | .inl (p, c, cur) => .busy p c cur hintRoots
  | .inr (p, _) => .idle p

/-- Calls on `A`, whose turns may also pass through images with other hashes. -/
inductive Step (A : Image) (n : ℕ) : Session → Session → Prop
  | call (p : Memo) (c : RspT) (pc : Word) (hintRoots : List Word) (R : Finset Word) (k : ℕ) :
      Step A n ⟨some (.idle p), R, k⟩ ⟨some (.busy p { c with halted := false } pc hintRoots), R, k⟩
  | turn {p : Memo} {c : RspT} {cur : Word} {hintRoots : List Word} {R : Finset Word} {k : ℕ}
      {x : (Memo × RspT × Word) ⊕ (Memo × RspT)} (himg : c.core.imem = A)
      (h : Memo.turn n hintRoots (p, c, cur) = some x) :
      Step A n ⟨some (.busy p c cur hintRoots), R, k⟩
        ⟨some (after hintRoots x),
          R ∪ words (cur :: hintRoots) ∪ words (Memo.fallback n hintRoots (p, c, cur)).toList,
          k + ((x.elim Prod.fst Prod.fst).nCompiles - p.nCompiles)⟩
  | other {p : Memo} {c : RspT} {cur : Word} {hintRoots : List Word} {R : Finset Word} {k : ℕ}
      {x : (Memo × RspT × Word) ⊕ (Memo × RspT)}
      (himg : fnv1a64 A.bytes ≠ fnv1a64 c.core.imem.bytes)
      (h : Memo.turn n hintRoots (p, c, cur) = some x) :
      Step A n ⟨some (.busy p c cur hintRoots), R, k⟩ ⟨some (after hintRoots x), R, k⟩
  | hang {p : Memo} {c : RspT} {cur : Word} {hintRoots : List Word} {R : Finset Word} {k : ℕ}
      {img : ImageT} {compiled : Bool} (himg : c.core.imem = A)
      (h : p.serve n A cur hintRoots = some (img, compiled)) :
      Step A n ⟨some (.busy p c cur hintRoots), R, k⟩
        ⟨none, R ∪ words (cur :: hintRoots), k + compiled.toNat⟩

/-- The call offers, or falls back to, an untranslatable word that was offered before and that
a compile has erased since. -/
def Reoffers (A : Image) (n : ℕ) : Session → Prop
  | ⟨some (.busy p c cur hintRoots), R, _⟩ => c.core.imem = A ∧ ∃ r, A.translatable r = false ∧
      (r ∈ cur :: hintRoots ∧ r &&& 0xffc ∈ R ∧ r &&& 0xffc ∉ (p.held A).roots ∨
        Memo.fallback n hintRoots (p, c, cur) = some r ∧ r &&& 0xffc ∈ R ∪ words (cur :: hintRoots))
  | _ => False

structure Kept (A : Image) (p : Memo) : Prop where
  keyed : p.Keyed
  fresh : (p.held A).stale = false → ∀ r ∈ (p.held A).roots, A.translatable r

/-- A stale entry has a compile to come, and the words offered so far pay for it. -/
structure Balanced (A : Image) (p : Memo) (R : Finset Word) (k : ℕ) : Prop extends Kept A p where
  known : ∀ r ∈ R, A.translatable r → r ∈ (p.held A).roots
  paid : k + (if (p.held A).stale then 1 else 0) ≤ 1 + R.card

variable {A : Image} {p : Memo} {R : Finset Word} {k n : ℕ} {cur : Word} {hintRoots : List Word}

theorem mem_words {l : List Word} {r : Word} : r ∈ words l ↔ ∃ a ∈ l, a &&& 0xffc = r := by
  simp only [words, List.mem_toFinset, List.mem_map]

theorem kept_init (A : Image) : Kept A Memo.init where
  keyed := Memo.keyed_init
  fresh h := by cases h

theorem balanced_init (A : Image) : Balanced A Memo.init ∅ 0 where
  toKept := kept_init A
  known r hr := by cases hr
  paid := by simp only [Memo.held, Memo.init, Option.getD_none, ImageT.empty]; decide

theorem card_succ_le {R' : Finset Word} (h : R ⊆ R') {r : Word} (hr : r ∈ R') (hn : r ∉ R) :
    R.card + 1 ≤ R'.card := Finset.card_lt_card ((Finset.ssubset_iff_of_subset h).mpr ⟨r, hr, hn⟩)

/-- A new root of a fresh entry was not offered before, unless a compile has erased it. -/
theorem Balanced.new_root (h : Balanced A p R k) {r : Word} (hr : r &&& 0xffc ∉ (p.held A).roots)
    (hre : ¬ (A.translatable r = false ∧ r &&& 0xffc ∈ R)) : r &&& 0xffc ∉ R := by
  intro hR
  cases ht : A.translatable r with
  | true => exact hr (h.known _ hR (by rwa [Image.translatable_mask]))
  | false => exact hre ⟨ht, hR⟩

/-- The compile a call causes is paid for, and the entry it is served has every translatable
word that was offered. -/
theorem Balanced.serve (h : Balanced A p R k) {img : ImageT} {compiled : Bool}
    (hs : p.serve n A cur hintRoots = some (img, compiled))
    (hre : ∀ r ∈ cur :: hintRoots, r &&& 0xffc ∉ (p.held A).roots →
      ¬ (A.translatable r = false ∧ r &&& 0xffc ∈ R)) :
    img.stale = false ∧ (∀ r ∈ R ∪ words (cur :: hintRoots), A.translatable r → r ∈ img.roots) ∧
      k + compiled.toNat ≤ 1 + (R ∪ words (cur :: hintRoots)).card := by
  have hsub : R ⊆ R ∪ words (cur :: hintRoots) := Finset.subset_union_left
  have hcard := Finset.card_le_card hsub
  have hpaid := h.paid
  obtain ⟨-, ⟨rfl, hroots, -, hst, hknown⟩ | ⟨rfl, hst, -, hkept, hcause⟩⟩ :=
    h.keyed.serve_cases hs
  · refine ⟨hst, ?_, ?_⟩
    · intro r hr ht
      rw [hroots]
      rcases Finset.mem_union.mp hr with hr | hr
      · exact h.known r hr ht
      · obtain ⟨a, ha, rfl⟩ := mem_words.mp hr
        exact hknown a ha
    · simp only [Bool.toNat_false]
      omega
  · refine ⟨hst, ?_, ?_⟩
    · intro r hr ht
      rcases Finset.mem_union.mp hr with hr | hr
      · exact hkept r (.inl (h.known r hr ht)) ht
      · exact hkept r (.inr (List.mem_toFinset.mp hr)) ht
    · simp only [Bool.toNat_true]
      -- a stale entry was paid for before, a new root pays now
      rcases hcause with hold | ⟨r, hr, hnew⟩
      · rw [hold, if_pos rfl] at hpaid
        omega
      · have hmem : r &&& 0xffc ∈ R ∪ words (cur :: hintRoots) :=
          Finset.mem_union_right _ (mem_words.mpr ⟨r, hr, rfl⟩)
        have hlt := card_succ_le hsub hmem (h.new_root hnew (hre r hr hnew))
        omega

theorem held_of_cache {q : Memo} {e : ImageT}
    (hq : q.cache = (p.store (fnv1a64 A.bytes) e).cache) : q.held A = e := by
  have hheld : q.held A = (p.store (fnv1a64 A.bytes) e).held A := by
    rw [Memo.held, hq, Memo.held]
  rw [hheld, Memo.held_store]

theorem Kept.store (h : Kept A p) {q : Memo} {e : ImageT}
    (hq : q.cache = (p.store (fnv1a64 A.bytes) e).cache) (he : e.imem = A)
    (hfresh : e.stale = false → ∀ r ∈ e.roots, A.translatable r) : Kept A q where
  keyed := by
    have hkeyed : (p.store (fnv1a64 A.bytes) e).Keyed := h.keyed.store (by rw [he])
    intro h' img' himg
    exact hkeyed h' img' (hq ▸ himg)
  fresh := by
    rw [held_of_cache hq]
    exact hfresh

theorem held_of_other {B : Image} {q : Memo} {e : ImageT}
    (hne : fnv1a64 A.bytes ≠ fnv1a64 B.bytes)
    (hq : q.cache = (p.store (fnv1a64 B.bytes) e).cache) : q.held A = p.held A := by
  have hheld : q.held A = (p.store (fnv1a64 B.bytes) e).held A := by
    rw [Memo.held, hq, Memo.held]
  rw [hheld, Memo.held_store_other p e hne]

theorem Kept.other (h : Kept A p) {c : RspT} {x : (Memo × RspT × Word) ⊕ (Memo × RspT)}
    (hne : fnv1a64 A.bytes ≠ fnv1a64 c.core.imem.bytes)
    (ht : Memo.turn n hintRoots (p, c, cur) = some x) :
    Kept A (x.elim Prod.fst Prod.fst) ∧ (x.elim Prod.fst Prod.fst).held A = p.held A := by
  obtain ⟨img, compiled, hs, -, hq⟩ := Memo.turn_spec ht
  have hfind := h.keyed.find c.core.imem
  rw [hfind] at hq
  dsimp only at hq
  have hheld := held_of_other hne hq
  refine ⟨⟨?_, ?_⟩, hheld⟩
  · have him : ((Memo.fallback n hintRoots (p, c, cur)).elim img img.insertRoot).imem =
        c.core.imem := by
      cases Memo.fallback n hintRoots (p, c, cur) with
      | none => exact (h.keyed.serve_cases hs).1
      | some r => exact (ImageT.insertRoot_imem img r).trans (h.keyed.serve_cases hs).1
    have hkeyed := h.keyed.store (by rw [him] : fnv1a64 c.core.imem.bytes = _)
    intro h' img' himg
    exact hkeyed h' img' (hq ▸ himg)
  · rw [hheld]
    exact h.fresh

theorem Kept.turn (h : Kept A p) {c : RspT} (himg : c.core.imem = A)
    {x : (Memo × RspT × Word) ⊕ (Memo × RspT)} (ht : Memo.turn n hintRoots (p, c, cur) = some x) :
    ∃ img compiled, p.serve n A cur hintRoots = some (img, compiled) ∧
      (x.elim Prod.fst Prod.fst).nCompiles = p.nCompiles + compiled.toNat ∧
      Kept A (x.elim Prod.fst Prod.fst) ∧
      (x.elim Prod.fst Prod.fst).held A =
        (Memo.fallback n hintRoots (p, c, cur)).elim img img.insertRoot := by
  obtain ⟨img, compiled, hs, hcount, hq⟩ := Memo.turn_spec ht
  rw [h.keyed.find, himg] at hq
  rw [himg] at hs
  dsimp only at hq
  refine ⟨img, compiled, hs, hcount, ?_, held_of_cache hq⟩
  obtain ⟨him, hcases⟩ := h.keyed.serve_cases hs
  have htr : ∀ r ∈ img.roots, A.translatable r := by
    obtain ⟨-, hroots, hheld, -⟩ | ⟨-, -, htr, -⟩ := hcases
    · rw [hroots]
      exact h.fresh hheld
    · exact htr
  cases hf : Memo.fallback n hintRoots (p, c, cur) with
  | none =>
    rw [hf] at hq
    exact h.store hq him fun _ => htr
  | some next =>
    rw [hf] at hq
    refine h.store hq ((ImageT.insertRoot_imem _ _).trans him) ?_
    intro hst
    -- a fresh entry had the root already
    by_cases hold : next &&& 0xffc ∈ img.roots
    · rw [Option.elim_some, ImageT.insertRoot_of_mem hold]
      exact htr
    · rw [Option.elim_some, ImageT.insertRoot, if_neg hold] at hst
      cases hst

/-- A turn on `A` keeps the books: what it compiles and the root it falls back to are paid
for. -/
theorem Balanced.turn (h : Balanced A p R k) {c : RspT} (himg : c.core.imem = A)
    {x : (Memo × RspT × Word) ⊕ (Memo × RspT)} (ht : Memo.turn n hintRoots (p, c, cur) = some x)
    (hre : ¬ Reoffers A n ⟨some (.busy p c cur hintRoots), R, k⟩) :
    Balanced A (x.elim Prod.fst Prod.fst)
      (R ∪ words (cur :: hintRoots) ∪ words (Memo.fallback n hintRoots (p, c, cur)).toList)
      (k + ((x.elim Prod.fst Prod.fst).nCompiles - p.nCompiles)) := by
  obtain ⟨img, compiled, hs, hcount, hkeeps, hheld⟩ := h.toKept.turn himg ht
  rw [hcount, Nat.add_sub_cancel_left]
  obtain ⟨hst, hknown, hpaid⟩ := h.serve hs (by
    rintro r hr hnew ⟨hdata, hR⟩
    exact hre ⟨himg, r, hdata, .inl ⟨hr, hR, hnew⟩⟩)
  generalize hR' : R ∪ words (cur :: hintRoots) = R' at hknown hpaid ⊢
  cases hf : Memo.fallback n hintRoots (p, c, cur) with
  | none =>
    rw [hf, Option.elim_none] at hheld
    refine ⟨hkeeps, ?_, ?_⟩
    · intro r hr ht
      rw [hheld]
      exact hknown r (by simpa [words] using hr) ht
    · rw [hheld, hst]
      simpa [words] using hpaid
  | some next =>
    rw [hf, Option.elim_some] at hheld
    have hmem : next &&& 0xffc ∈ R' ∪ words (some next).toList :=
      Finset.mem_union_right _ (mem_words.mpr ⟨next, List.mem_singleton_self next, rfl⟩)
    refine ⟨hkeeps, ?_, ?_⟩
    · intro r hr ht
      rw [hheld, ImageT.mem_insertRoot]
      rcases Finset.mem_union.mp hr with hr | hr
      · exact .inl (hknown r hr ht)
      · obtain ⟨a, ha, rfl⟩ := mem_words.mp hr
        rw [List.mem_singleton.mp ha]
        exact .inr rfl
    · rw [hheld]
      by_cases hold : next &&& 0xffc ∈ img.roots
      · have hsub : R' ⊆ R' ∪ words (some next).toList := Finset.subset_union_left
        have hcard := Finset.card_le_card hsub
        rw [ImageT.insertRoot_of_mem hold, hst]
        simp only [Bool.false_eq_true, if_false]
        omega
      -- a root the entry has not is a new word, or data that was offered before
      · have hnew : next &&& 0xffc ∉ R' := by
          intro hR
          cases hd : A.translatable next with
          | true => exact hold (hknown _ hR (by rwa [Image.translatable_mask]))
          | false => exact hre ⟨himg, next, hd, .inr ⟨hf, hR' ▸ hR⟩⟩
        have hstale : (img.insertRoot next).stale = true := by
          rw [ImageT.insertRoot, if_neg hold]
        have hlt := card_succ_le Finset.subset_union_left hmem hnew
        rw [hstale, if_pos rfl]
        omega

structure Books (A : Image) (s : Session) : Prop where
  masked : ∀ r ∈ s.offered, r &&& 0xffc = r
  bound : s.compiles ≤ 1 + s.offered.card
  memo : ∀ h, s.host = some h → Balanced A h.memo s.offered s.compiles

theorem books_init (A : Image) : Books A init where
  masked r hr := by cases hr
  bound := Nat.zero_le _
  memo := by
    rintro h ⟨⟩
    exact balanced_init A

theorem masked_union (h : ∀ r ∈ R, r &&& 0xffc = r) (l : List Word) :
    ∀ r ∈ R ∪ words l, r &&& 0xffc = r := by
  intro r hr
  rcases Finset.mem_union.mp hr with hr | hr
  · exact h r hr
  · obtain ⟨a, -, rfl⟩ := mem_words.mp hr
    exact Word.and_ffc_idem a

theorem memo_after (hintRoots : List Word) (x : (Memo × RspT × Word) ⊕ (Memo × RspT)) :
    (after hintRoots x).memo = x.elim Prod.fst Prod.fst := by
  rcases x with ⟨p, c, cur⟩ | ⟨p, c⟩ <;> rfl

theorem Balanced.bound (h : Balanced A p R k) : k ≤ 1 + R.card := by
  have hpaid := h.paid
  omega

theorem Books.step {s t : Session} (h : Books A s) (hre : ¬ s.Reoffers A n) (hst : Step A n s t) :
    Books A t := by
  cases hst with
  | call p c pc hintRoots R k =>
    refine ⟨h.masked, h.bound, ?_⟩
    rintro _ ⟨⟩
    exact h.memo (.idle p) rfl
  | turn himg ht =>
    have hb := (h.memo _ rfl).turn himg ht hre
    refine ⟨masked_union (masked_union h.masked _) _, hb.bound, ?_⟩
    rintro _ ⟨⟩
    rwa [memo_after]
  | other hne ht =>
    have hb := h.memo _ rfl
    obtain ⟨hkept, hheld⟩ := hb.toKept.other hne ht
    refine ⟨h.masked, h.bound, ?_⟩
    rintro _ ⟨⟩
    rw [memo_after]
    exact ⟨hkept, by rw [hheld]; exact hb.known, by rw [hheld]; exact hb.paid⟩
  | hang himg hs =>
    obtain ⟨-, -, hpaid⟩ := (h.memo _ rfl).serve hs (by
      rintro r hr hnew ⟨hdata, hR⟩
      exact hre ⟨himg, r, hdata, .inl ⟨hr, hR, hnew⟩⟩)
    exact ⟨masked_union h.masked _, hpaid, by rintro _ ⟨⟩⟩

theorem Step.kept {s t : Session} (h : Step A n s t) (hs : ∀ h, s.host = some h → Kept A h.memo) :
    ∀ h, t.host = some h → Kept A h.memo := by
  cases h with
  | call p c pc hintRoots R k =>
    rintro _ ⟨⟩
    exact hs (.idle p) rfl
  | turn himg ht =>
    rintro _ ⟨⟩
    obtain ⟨-, -, -, -, hkept, -⟩ := (hs _ rfl).turn himg ht
    rwa [memo_after]
  | other hne ht =>
    rintro _ ⟨⟩
    rw [memo_after]
    exact ((hs _ rfl).other hne ht).1
  | hang => rintro _ ⟨⟩

theorem Step.compiles_le {s t : Session} (h : Step A n s t) : s.compiles ≤ t.compiles := by
  cases h
  · exact le_rfl
  · exact Nat.le_add_right _ _
  · exact le_rfl
  · exact Nat.le_add_right _ _

/-- Offering an untranslatable word means a compile, however often it was offered: a run that
is repeated with one never stops compiling. -/
theorem compiles_of_data {s : Session}
    (hrun : Relation.ReflTransGen (fun s t => ∃ n, Step A n s t) init s) {c : RspT}
    (hs : s.host = some (.busy p c cur hintRoots)) {r : Word} (hr : r ∈ cur :: hintRoots)
    (hdata : A.translatable r = false) {img : ImageT} {compiled : Bool}
    (hserve : p.serve n A cur hintRoots = some (img, compiled)) : compiled = true := by
  have hkept : ∀ h, s.host = some h → Kept A h.memo := by
    clear hs
    induction hrun with
    | refl =>
      rintro _ ⟨⟩
      exact kept_init A
    | tail _ hst ih =>
      obtain ⟨n, hst⟩ := hst
      exact hst.kept ih
  have hk := hkept _ hs
  obtain ⟨-, ⟨-, -, hheld, -, hknown⟩ | ⟨htrue, -⟩⟩ := hk.keyed.serve_cases hserve
  · have htr := hk.fresh hheld _ (hknown r hr)
    rw [Image.translatable_mask, hdata] at htr
    cases htr
  · exact htrue

theorem Books.card_le {s : Session} (h : Books A s) : s.offered.card ≤ 1024 := by
  -- a masked word is four times an index below 1024
  have hinj : Set.InjOn (fun r : Word => r.toNat / 4) s.offered := by
    intro a ha b hb hab
    have h1 := Word.toNat_and_ffc a
    have h2 := Word.toNat_and_ffc b
    rw [h.masked a ha] at h1
    rw [h.masked b hb] at h2
    apply BitVec.eq_of_toNat_eq
    simp only at hab
    omega
  have hcard := Finset.card_le_card_of_injOn (t := Finset.range 1024) _ (by
    intro r hr
    have hm := Word.toNat_and_ffc r
    rw [h.masked r hr] at hm
    apply Finset.mem_coe.mpr
    apply Finset.mem_range.mpr
    simp only
    omega) hinj
  rwa [Finset.card_range] at hcard

def Clean (A : Image) (s t : Session) : Prop := ∃ n, ¬ s.Reoffers A n ∧ Step A n s t

theorem Books.reach {s t : Session} (h : Books A s) (hrun : Relation.ReflTransGen (Clean A) s t) :
    Books A t := by
  induction hrun with
  | refl => exact h
  | tail _ hst ih =>
    obtain ⟨n, hre, hst⟩ := hst
    exact ih.step hre hst

theorem exists_last {f : ℕ → ℕ} (hf : Monotone f) {b : ℕ} (hb : ∀ i, f i ≤ b) :
    ∃ N, ∀ i, N ≤ i → f i = f N := by
  -- from any turn on, the count stands still or the room under the bound shrinks
  have hroom (d i : ℕ) (hd : b - f i ≤ d) : ∃ N, ∀ j, N ≤ j → f j = f N := by
    induction d generalizing i with
    | zero =>
      refine ⟨i, fun j hj => ?_⟩
      have h1 := hf hj
      have h2 := hb j
      omega
    | succ d ih =>
      by_cases hall : ∀ j, i ≤ j → f j = f i
      · exact ⟨i, hall⟩
      · push Not at hall
        obtain ⟨j, hj, hne⟩ := hall
        have h1 := hf hj
        exact ih j (by omega)
  exact hroom (b - f 0) 0 le_rfl

/-- An image is compiled at most once more than it was offered words, so that in the end a
session compiles nothing, as long as no word is offered again that a compile has erased. -/
theorem compiles_bounded {s : Session} (hrun : Relation.ReflTransGen (Clean A) init s) :
    s.compiles ≤ 1 + s.offered.card ∧ s.compiles ≤ 1025 ∧
      ∀ t : ℕ → Session, t 0 = s → (∀ i, Clean A (t i) (t (i + 1))) →
        ∃ N, ∀ i, N ≤ i → (t i).compiles = (t N).compiles := by
  have hbooks := (books_init A).reach hrun
  have hmax {u : Session} (h : Books A u) : u.compiles ≤ 1025 := by
    have hcard := h.card_le
    have hbound := h.bound
    omega
  refine ⟨hbooks.bound, hmax hbooks, ?_⟩
  rintro t rfl ht
  have hall (i : ℕ) : Books A (t i) := by
    induction i with
    | zero => exact hbooks
    | succ i ih =>
      obtain ⟨n, hre, hst⟩ := ht i
      exact ih.step hre hst
  refine exists_last (monotone_nat_of_le_succ fun i => ?_) fun i => hmax (hall i)
  obtain ⟨n, -, hst⟩ := ht i
  exact hst.compiles_le

/-- The first run of a task is one compile for one root. -/
theorem compiles_bounded_collide : ∃ s : Session, s.compiles = 1 ∧ s.offered = {0} ∧
    (s.compiles ≤ 1 + s.offered.card ∧ s.compiles ≤ 1025 ∧
      ∀ t : ℕ → Session, t 0 = s → (∀ i, Clean collideA.core.imem (t i) (t (i + 1))) →
        ∃ N, ∀ i, N ≤ i → (t i).compiles = (t N).compiles) := by
  obtain ⟨r, hr, hnext⟩ := fn_collideA
  have hturn := Memo.turn_of_break serve_collideA rfl hr hnext
  have hfall : Memo.fallback 8 [] (Memo.init, collideA, 0) = none := by
    have hfn : collideImage.fn.bind (fun T => T.fn 8 collideA.core 0) = some r := hr
    simp only [Memo.fallback, serve_collideA, hfn, if_pos hnext]
  have hclean : ¬ Reoffers collideA.core.imem 8 ⟨some (.busy Memo.init collideA 0 []), ∅, 0⟩ := by
    rintro ⟨-, r', -, ⟨-, hr', -⟩ | ⟨hr', -⟩⟩
    · cases hr'
    · rw [hfall] at hr'
      cases hr'
  have hcall : Clean collideA.core.imem init ⟨some (.busy Memo.init collideA 0 []), ∅, 0⟩ :=
    ⟨8, id, .call Memo.init collideA 0 [] ∅ 0⟩
  refine ⟨_, ?_, ?_, compiles_bounded ((Relation.ReflTransGen.single hcall).tail
    ⟨8, hclean, .turn rfl hturn⟩)⟩
  · rfl
  · rw [hfall]
    rfl

end Session

/-- A jump with a BREAK in its slot is no root; the interpreter runs it. -/
def slotTask : RspT where
  core := Rsp.withCode [0x08, 0x00, 0x00, 0x00, 0x00, 0x00, 0x00, 0x0d]
  pc := 0
  halted := false
  nInsns := 0

def slotT : Translation where
  imem := slotTask.core.imem
  ctxs := Contexts.init
  roots := []
  leaders := [(0, 0)]
  blocks := [((0, 0), ⟨[], .interp 0⟩)]

def slotImage : ImageT where
  fn := some slotT
  imem := slotTask.core.imem
  roots := [0]
  stale := true

theorem compile_slotTask : compile slotTask.core.imem 8 [0] = some slotT := rfl

theorem fn_slotTask : slotT.fn 8 slotTask.core 0 = some ⟨0, slotTask.core, false⟩ :=
  congrArg (fun c => some (⟨0, c, false⟩ : Translation.Ret)) (Frame.spill_enter slotTask.core)

theorem run_slotTask : ∃ c, slotTask.run 8 0 = some c := by
  have hjump : RspT.turn (slotTask.start 0) =
      some (.inl (⟨slotTask.core.zeroR0, 4, false, 1⟩, 0)) := rfl
  have hslot : RspT.turn (⟨slotTask.core.zeroR0, 4, false, 1⟩, 0) =
      some (.inl (⟨slotTask.core.zeroR0.zeroR0, 0, true, 2⟩, 4)) := rfl
  exact ⟨_, (loop_next hjump 7).trans ((loop_next hslot 6).trans (loop_done rfl 5))⟩

namespace Session

variable {p : Memo}

/-- A run at 0 that has to compile leaves the entry with the root 0 to be compiled again. -/
theorem rerun_slotTask (hk : Kept slotTask.core.imem p)
    (hroots : (p.offer slotTask.core.imem 0 []).roots = [0])
    (hstale : (p.offer slotTask.core.imem 0 []).stale = true) :
    ∃ p', Kept slotTask.core.imem p' ∧ p'.held slotTask.core.imem = slotImage ∧
      ∀ R k, Relation.ReflTransGen (fun s t => ∃ n, Step slotTask.core.imem n s t)
        ⟨some (.idle p), R, k⟩ ⟨some (.idle p'), R ∪ {0} ∪ {0}, k + 1⟩ := by
  have him : (p.offer slotTask.core.imem 0 []).imem = slotTask.core.imem := by
    rw [(Memo.offer_spec p _ 0 []).2.1, hk.keyed.find]
  have hserve : p.serve 8 slotTask.core.imem 0 [] =
      some ({ slotImage with roots := [], stale := false }, true) := by
    simp only [Memo.serve, hstale, if_true, ImageT.compile, hroots, compile_slotTask,
      Option.map_some, him]
    rfl
  obtain ⟨c, hc⟩ := run_slotTask
  -- the block at 0 leaves for 0 with the machine as it was, so the turn falls back there
  have hbind : slotImage.fn.bind (fun T => T.fn 8 slotTask.core 0) =
      some ⟨0, slotTask.core, false⟩ := fn_slotTask
  have hfall : Memo.fallback 8 [] (p, slotTask, 0) = some 0 := by
    simp only [Memo.fallback, hserve, hbind]
    rfl
  obtain ⟨p', hturn⟩ : ∃ p', Memo.turn 8 [] (p, slotTask, 0) = some (.inr (p', c)) := by
    have hne : ¬ (0 : Word) = haltedPc := by decide
    have hc' : RspT.run 8 { slotTask with core := slotTask.core, halted := false } 0 = some c := hc
    simp only [Memo.turn, hserve, hbind, if_neg hne, ne_eq, not_true_eq_false, if_false, hc',
      Option.map_some]
    exact ⟨_, rfl⟩
  obtain ⟨img, compiled, hs, hcount, hkept, hheld⟩ := hk.turn rfl hturn
  obtain ⟨rfl, rfl⟩ := Prod.mk.inj (Option.some.inj (hserve.symm.trans hs))
  rw [hfall] at hheld
  refine ⟨p', hkept, hheld, fun R k => ?_⟩
  have hcall := Step.call (A := slotTask.core.imem) (n := 8) p slotTask 0 [] R k
  have hrun := Step.turn (A := slotTask.core.imem) (n := 8) (R := R) (k := k) rfl hturn
  rw [hfall, hcount, Nat.add_sub_cancel_left] at hrun
  exact (Relation.ReflTransGen.single ⟨8, hcall⟩).tail ⟨8, hrun⟩

/-- Each of its runs is a compile, and they offer one root. -/
theorem runs_slotTask (m : ℕ) : ∃ p, Kept slotTask.core.imem p ∧
    p.held slotTask.core.imem = slotImage ∧
    Relation.ReflTransGen (fun s t => ∃ n, Step slotTask.core.imem n s t) init
      ⟨some (.idle p), {0}, m + 1⟩ := by
  induction m with
  | zero =>
    obtain ⟨p, hk, hheld, hrun⟩ := rerun_slotTask (kept_init _)
      (by rw [Memo.offer, Memo.keyed_init.find]; rfl) (by rw [Memo.offer, Memo.keyed_init.find]; rfl)
    exact ⟨p, hk, hheld, hrun ∅ 0⟩
  | succ m ih =>
    obtain ⟨p, hk, hheld, hrun⟩ := ih
    have hoffer : p.offer slotTask.core.imem 0 [] = slotImage := by
      rw [Memo.offer, hk.keyed.find, hheld]
      rfl
    obtain ⟨p', hk', hheld', hrun'⟩ := rerun_slotTask hk (by rw [hoffer]; rfl) (by rw [hoffer]; rfl)
    exact ⟨p', hk', hheld', hrun.trans (hrun' {0} (m + 1))⟩

/-- Three runs at 0 compile the image three times. -/
theorem not_compiles_bounded : ∃ s, Relation.ReflTransGen
    (fun s t => ∃ n, Step slotTask.core.imem n s t) init s ∧ s.offered = {0} ∧ s.compiles = 3 ∧
      ¬ s.compiles ≤ 1 + s.offered.card := by
  obtain ⟨p, -, -, hrun⟩ := runs_slotTask 2
  exact ⟨_, hrun, rfl, rfl, show ¬ 3 ≤ 1 + ({0} : Finset Word).card by decide⟩

end Session

end RspBt
