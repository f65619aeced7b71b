import RspBt.Bt.Refine

namespace RspBt

open Lib

/-- Unless it is stale, the entry holds the bytes its `fn` was compiled from. -/
def ImageT.Sound (img : ImageT) : Prop :=
  img.stale = false → ∃ T, img.fn = some T ∧ T.imem = img.imem

namespace ImageT

theorem insertRoot_of_stale {img : ImageT} (h : img.stale = true) (a : Word) :
    (img.insertRoot a).stale = true := by
  unfold insertRoot
  split_ifs
  · exact h
  · rfl

theorem insertRoot_of_mem {img : ImageT} {a : Word} (h : a &&& 0xffc ∈ img.roots) :
    img.insertRoot a = img := if_pos h

theorem insertRoots_of_stale {img : ImageT} (h : img.stale = true) (l : List Word) :
    (l.foldl insertRoot img).stale = true := by
  induction l generalizing img with
  | nil => exact h
  | cons a l ih => exact ih (insertRoot_of_stale h a)

theorem insertRoots_fresh (l : List Word) (img : ImageT) :
    (l.foldl insertRoot img).stale = false ↔
      img.stale = false ∧ ∀ r ∈ l, r &&& 0xffc ∈ img.roots := by
  induction l generalizing img with
  | nil => simp only [List.foldl_nil, List.not_mem_nil, false_implies, implies_true, and_true]
  | cons a l ih =>
    rw [List.foldl_cons, List.forall_mem_cons]
    by_cases ha : a &&& 0xffc ∈ img.roots
    · rw [insertRoot_of_mem ha, ih, and_iff_right ha]
    · have hst : (img.insertRoot a).stale = true := by
        rw [insertRoot, if_neg ha]
      rw [insertRoots_of_stale hst]
      simp only [Bool.true_eq_false, ha, false_and, and_false]

theorem Sound.insertRoot {img : ImageT} (h : img.Sound) (a : Word) : (img.insertRoot a).Sound := by
  intro hst
  rw [insertRoot_fn, insertRoot_imem]
  exact h (insertRoot_stale hst)

end ImageT

theorem compile_walked {imem : Image} {n : ℕ} {roots : List Word} {T : Translation}
    (h : compile imem n roots = some T) :
    T.imem = imem ∧ ∃ w, Walk.walk imem n roots = some w ∧ T.roots = w.roots := by
  unfold compile at h
  cases hw : Walk.walk imem n roots with
  | none =>
    rw [hw] at h
    cases h
  | some w =>
    rw [hw] at h
    obtain ⟨x, -, rfl⟩ := Option.map_eq_some_iff.mp h
    exact ⟨rfl, w, rfl, rfl⟩

theorem compile_imem {imem : Image} {n : ℕ} {roots : List Word} {T : Translation}
    (h : compile imem n roots = some T) : T.imem = imem := (compile_walked h).1

namespace Memo

variable {p : Memo} {imem : Image} {cur : Word} {hintRoots : List Word}

def Sound (p : Memo) : Prop := ∀ h img, p.cache h = some img → img.Sound

theorem sound_init : init.Sound := by
  intro h img hc
  cases hc

theorem Sound.store (hp : p.Sound) (h : BitVec 64) {img : ImageT} (hi : img.Sound) :
    (p.store h img).Sound := by
  intro h' img' hc
  by_cases heq : h' = h
  · rw [heq, store_self] at hc
    rwa [← Option.some.inj hc]
  · rw [store_other p heq] at hc
    exact hp h' img' hc

def entry (p : Memo) (imem : Image) : Option ImageT :=
  match p.lastImage with
  | none => p.cache (fnv1a64 imem.bytes)
  | some (_, img) => if img.imem = imem then some img else p.cache (fnv1a64 imem.bytes)

theorem find_entry (p : Memo) (imem : Image) :
    (p.find imem).2 = { (p.entry imem).getD .empty with imem := imem } := by
  unfold find entry
  cases hl : p.lastImage with
  | none => rfl
  | some x =>
    obtain ⟨h, img⟩ := x
    by_cases him : img.imem = imem
    · subst him
      simp only [if_true, Option.getD_some]
    · simp only [if_neg him]
      rfl

theorem Sound.entry (hp : p.Sound) {img : ImageT} (h : p.entry imem = some img) : img.Sound := by
  unfold Memo.entry at h
  cases hl : p.lastImage with
  | none =>
    rw [hl] at h
    exact hp _ _ h
  | some x =>
    rw [hl] at h
    by_cases him : x.2.imem = imem
    · simp only [if_pos him] at h
      obtain rfl := Option.some.inj h
      obtain ⟨k, -, hk⟩ := Option.bind_eq_some_iff.mp hl
      obtain ⟨img, himg, rfl⟩ := Option.map_eq_some_iff.mp hk
      exact hp _ _ himg
    · simp only [if_neg him] at h
      exact hp _ _ h

/-- The entry was made for other bytes with the same hash, and the call offers no root that it
does not have. -/
def Clash (p : Memo) (imem : Image) (cur : Word) (hintRoots : List Word) : Prop :=
  ∃ img, p.entry imem = some img ∧ img.imem ≠ imem ∧ img.stale = false ∧
    ∀ r ∈ cur :: hintRoots, r &&& 0xffc ∈ img.roots

/-- What is called was compiled from the image in IMEM. -/
def ServesRight (p : Memo) (imem : Image) (cur : Word) (hintRoots : List Word) : Prop :=
  ∀ n img compiled, p.serve n imem cur hintRoots = some (img, compiled) →
    ∃ T, img.fn = some T ∧ T.imem = imem

theorem offer_fresh : (p.offer imem cur hintRoots).stale = false ↔
    ∃ img, p.entry imem = some img ∧ img.stale = false ∧
      ∀ r ∈ cur :: hintRoots, r &&& 0xffc ∈ img.roots := by
  have h := ImageT.insertRoots_fresh (cur :: hintRoots) (p.find imem).2
  rw [find_entry] at h
  rw [offer, find_entry]
  refine h.trans ?_
  cases he : p.entry imem with
  | none =>
    constructor
    · rintro ⟨hst, -⟩
      cases hst
    · rintro ⟨img, himg, -⟩
      cases himg
  | some img =>
    constructor
    · exact fun hf => ⟨img, rfl, hf⟩
    · rintro ⟨img', himg, hf⟩
      obtain rfl := Option.some.inj himg
      exact hf

/-- A call without a clash leaves the entry sound, and calls what was compiled from IMEM. -/
theorem Sound.serve (hp : p.Sound) (hc : ¬ p.Clash imem cur hintRoots) {n : ℕ} {img : ImageT}
    {compiled : Bool} (hs : p.serve n imem cur hintRoots = some (img, compiled)) :
    img.Sound ∧ ∃ T, img.fn = some T ∧ T.imem = imem := by
  obtain ⟨hfn, him, -⟩ := offer_spec p imem cur hintRoots
  have himem : (p.offer imem cur hintRoots).imem = imem := by
    rw [him, find_entry]
  unfold Memo.serve at hs
  cases hst : (p.offer imem cur hintRoots).stale with
  | true =>
    simp only [hst, if_true] at hs
    obtain ⟨img', hcomp, himg⟩ := Option.map_eq_some_iff.mp hs
    obtain ⟨rfl, -⟩ := Prod.mk.inj himg
    obtain ⟨T, hT, rfl⟩ := Option.map_eq_some_iff.mp hcomp
    have hTi := compile_imem hT
    exact ⟨fun _ => ⟨T, rfl, hTi.trans himem.symm⟩, T, rfl, hTi⟩
  | false =>
    simp only [hst, Bool.false_eq_true, if_false] at hs
    obtain ⟨rfl, -⟩ := Prod.mk.inj (Option.some.inj hs)
    obtain ⟨old, he, hold, hroots⟩ := offer_fresh.mp hst
    have hbytes : old.imem = imem := by
      by_contra hne
      exact hc ⟨old, he, hne, hold, hroots⟩
    obtain ⟨T, hT, hTi⟩ := hp.entry he hold
    have hT' : (p.offer imem cur hintRoots).fn = some T := by
      rw [hfn, find_entry, he]
      exact hT
    have hTi' : T.imem = imem := hTi.trans hbytes
    exact ⟨fun _ => ⟨T, hT', hTi'.trans himem.symm⟩, T, hT', hTi'⟩

theorem Sound.servesRight_iff (hp : p.Sound) :
    p.ServesRight imem cur hintRoots ↔ ¬ p.Clash imem cur hintRoots := by
  constructor
  · rintro h ⟨old, he, hne, hold, hroots⟩
    obtain ⟨T, hT, hTi⟩ := hp.entry he hold
    have hfresh : (p.offer imem cur hintRoots).stale = false := offer_fresh.mpr ⟨old, he, hold, hroots⟩
    have hserve : p.serve 0 imem cur hintRoots = some (p.offer imem cur hintRoots, false) := by
      simp only [Memo.serve, hfresh, Bool.false_eq_true, if_false]
    obtain ⟨T', hT', hTi'⟩ := h 0 _ _ hserve
    rw [(offer_spec p imem cur hintRoots).1, find_entry, he] at hT'
    obtain rfl := Option.some.inj (hT.symm.trans hT')
    exact hne (hTi.symm.trans hTi')
  · exact fun hc n img compiled hs => (hp.serve hc hs).2

def fallback (n : ℕ) (hintRoots : List Word) (st : Memo × RspT × Word) : Option Word :=
  let (p, c, cur) := st
  match p.serve n c.core.imem cur hintRoots with
  | none => none
  | some (img, _) =>
    match img.fn.bind fun T => T.fn n c.core cur with
    | none => none
    | some r =>
      if r.next = haltedPc then none
      else if r.core.imemGen ≠ c.core.imemGen then none
      else some r.next

/-- A turn stores the entry it served, with the root it fell back to. -/
theorem turn_spec {n : ℕ} {c : RspT} {x : (Memo × RspT × Word) ⊕ (Memo × RspT)}
    (h : turn n hintRoots (p, c, cur) = some x) :
    ∃ img compiled, p.serve n c.core.imem cur hintRoots = some (img, compiled) ∧
      (x.elim Prod.fst Prod.fst).nCompiles = p.nCompiles + compiled.toNat ∧
      (x.elim Prod.fst Prod.fst).cache = (p.store (p.find c.core.imem).1
        ((fallback n hintRoots (p, c, cur)).elim img img.insertRoot)).cache := by
  unfold turn at h
  cases hs : p.serve n c.core.imem cur hintRoots with
  | none =>
    simp only [hs] at h
    cases h
  | some y =>
    obtain ⟨img, compiled⟩ := y
    refine ⟨img, compiled, rfl, ?_⟩
    simp only [hs] at h
    have hcount (k : BitVec 64) (e : ImageT) : (if compiled then
        { p.store k e with nCompiles := (p.store k e).nCompiles + 1 } else p.store k e).nCompiles =
        p.nCompiles + compiled.toNat := by
      cases compiled <;> rfl
    have hcache (k : BitVec 64) (e : ImageT) : (if compiled then
        { p.store k e with nCompiles := (p.store k e).nCompiles + 1 } else p.store k e).cache =
        (p.store k e).cache := by
      cases compiled <;> rfl
    cases hr : img.fn.bind fun T => T.fn n c.core cur with
    | none =>
      simp only [hr] at h
      cases h
    | some r =>
      simp only [hr] at h
      by_cases hb : r.next = haltedPc
      · rw [if_pos hb] at h
        obtain rfl := Option.some.inj h
        have hf : fallback n hintRoots (p, c, cur) = none := by
          simp only [fallback, hs, hr, if_pos hb]
        rw [hf]
        exact ⟨hcount _ _, hcache _ _⟩
      -- an overlay goes round, and the entry keeps its roots
      · rw [if_neg hb] at h
        by_cases hg : r.core.imemGen ≠ c.core.imemGen
        · rw [if_pos hg] at h
          obtain rfl := Option.some.inj h
          have hf : fallback n hintRoots (p, c, cur) = none := by
            simp only [fallback, hs, hr, if_neg hb, if_pos hg]
          rw [hf]
          exact ⟨hcount _ _, hcache _ _⟩
        · rw [if_neg hg] at h
          obtain ⟨c', -, rfl⟩ := Option.map_eq_some_iff.mp h
          have hf : fallback n hintRoots (p, c, cur) = some r.next := by
            simp only [fallback, hs, hr, if_neg hb, if_neg hg]
          rw [hf]
          refine ⟨hcount _ _, ?_⟩
          -- the second store overwrites the first
          refine (congrArg (fun f => Function.update f _ _) (hcache _ _)).trans ?_
          exact Function.update_idem ..

/-- A turn leaves the memo sound, whether it goes round or returns. -/
theorem Sound.turn (hp : p.Sound) {c : RspT} (hc : ¬ p.Clash c.core.imem cur hintRoots) {n : ℕ}
    {x : (Memo × RspT × Word) ⊕ (Memo × RspT)} (ht : turn n hintRoots (p, c, cur) = some x) :
    Memo.Sound (x.elim Prod.fst Prod.fst) := by
  obtain ⟨img, compiled, hs, -, hcache⟩ := turn_spec ht
  have himg := (hp.serve hc hs).1
  have hentry : ((fallback n hintRoots (p, c, cur)).elim img img.insertRoot).Sound := by
    cases fallback n hintRoots (p, c, cur) with
    | none => exact himg
    | some r => exact himg.insertRoot r
  intro h img' himg'
  rw [hcache] at himg'
  exact hp.store _ hentry h img' himg'

end Memo

/-- Between calls the host does what it likes with the machine; within one the memo goes from
image to image. -/
inductive Host
  | idle (p : Memo)
  | busy (p : Memo) (c : RspT) (cur : Word) (hintRoots : List Word)

namespace Host

def memo : Host → Memo
  | idle p => p
  | busy p _ _ _ => p

inductive Step : Host → Host → Prop
  | call (p : Memo) (c : RspT) (pc : Word) (hintRoots : List Word) :
      Step (idle p) (busy p { c with halted := false } pc hintRoots)
  | swap {n : ℕ} {p p' : Memo} {c c' : RspT} {cur cur' : Word} {hintRoots : List Word}
      (h : Memo.turn n hintRoots (p, c, cur) = some (.inl (p', c', cur'))) :
      Step (busy p c cur hintRoots) (busy p' c' cur' hintRoots)
  | ret {n : ℕ} {p p' : Memo} {c c' : RspT} {cur : Word} {hintRoots : List Word}
      (h : Memo.turn n hintRoots (p, c, cur) = some (.inr (p', c'))) :
      Step (busy p c cur hintRoots) (idle p')

def Clash : Host → Prop
  | idle _ => False
  | busy p c cur hintRoots => p.Clash c.core.imem cur hintRoots

def ServesRight : Host → Prop
  | idle _ => True
  | busy p c cur hintRoots => p.ServesRight c.core.imem cur hintRoots

theorem Step.sound {s t : Host} (h : Step s t) (hs : s.memo.Sound) (hc : ¬ s.Clash) :
    t.memo.Sound := by
  cases h with
  | call => exact hs
  | swap h => exact Memo.Sound.turn hs hc h
  | ret h => exact Memo.Sound.turn hs hc h

/-- In a session in which no call so far clashed, every entry is sound, and the next call is
served the translation of its own image if and only if it does not clash. -/
theorem session_servesRight {s : Host}
    (hrun : Relation.ReflTransGen (fun s t => ¬ s.Clash ∧ Step s t) (idle Memo.init) s) :
    s.memo.Sound ∧ (s.ServesRight ↔ ¬ s.Clash) := by
  have hsound : s.memo.Sound := by
    induction hrun with
    | refl => exact Memo.sound_init
    | tail _ hst ih => exact hst.2.sound ih hst.1
  refine ⟨hsound, ?_⟩
  cases s with
  | idle p => exact iff_of_true trivial id
  | busy p c cur hintRoots => exact hsound.servesRight_iff

end Host

theorem Memo.find_of_lastImage {p : Memo} (h : p.lastImage = none) (imem : Image) :
    (p.find imem).1 = fnv1a64 imem.bytes := by
  simp only [find, h, lookup]

/-- `ori $8, $0, a` to `ori $11, $0, d` and a BREAK. -/
def oriCode (a b c d : BitVec 16) : List Byte :=
  [0x34, 0x08, hiByte a, loByte a, 0x34, 0x09, hiByte b, loByte b, 0x34, 0x0a, hiByte c, loByte c,
    0x34, 0x0b, hiByte d, loByte d, 0x00, 0x00, 0x00, 0x0d]

def oriTask (a b c d : BitVec 16) : RspT where
  core := Rsp.withCode (oriCode a b c d)
  pc := 0
  halted := false
  nInsns := 0

def collideA : RspT := oriTask 0x8d41 0xfd0c 0x06bb 0x1fe0
def collideB : RspT := oriTask 0xab0f 0x2927 0xbf00 0xb2f8

theorem bytes_withCode {code : List Byte} (h : code.length ≤ 0x1000) :
    (Rsp.withCode code).imem.bytes = code ++ List.replicate (0x1000 - code.length) 0 := by
  apply List.ext_getElem
  · simp only [Image.bytes, List.length_ofFn, List.length_append, List.length_replicate]
    omega
  · intro i h1 h2
    simp only [Image.bytes, List.getElem_ofFn, Rsp.imem, Rsp.withCode]
    rw [if_pos (by omega), Nat.add_sub_cancel_left, List.getElem_append]
    split_ifs with hi
    · exact List.getD_eq_getElem _ _ hi
    · rw [List.getElem_replicate]
      exact List.getD_eq_default _ _ (by omega)

/-- The first bytes already collide, and the rest is the same. -/
theorem fnv1a64_collide :
    fnv1a64 collideA.core.imem.bytes = fnv1a64 collideB.core.imem.bytes := by
  have hA : (oriCode 0x8d41 0xfd0c 0x06bb 0x1fe0).length ≤ 0x1000 := by decide
  have hB : (oriCode 0xab0f 0x2927 0xbf00 0xb2f8).length ≤ 0x1000 := by decide
  have hlen : (oriCode 0x8d41 0xfd0c 0x06bb 0x1fe0).length =
      (oriCode 0xab0f 0x2927 0xbf00 0xb2f8).length := rfl
  have hcode : fnv1a64 (oriCode 0x8d41 0xfd0c 0x06bb 0x1fe0) =
      fnv1a64 (oriCode 0xab0f 0x2927 0xbf00 0xb2f8) := by decide
  unfold fnv1a64 at hcode ⊢
  simp only [collideA, collideB, oriTask]
  rw [bytes_withCode hA, bytes_withCode hB, List.foldl_append, List.foldl_append, hcode, hlen]

theorem collide_ne : collideA.core.imem ≠ collideB.core.imem := by
  intro h
  exact absurd (congrFun h 2) (by decide)

def collideT : Translation where
  imem := collideA.core.imem
  ctxs := Contexts.init
  roots := [0]
  leaders := [(0, 0)]
  blocks := [((0, 0), ⟨[⟨.iType .ori, 0x34088d41, 0⟩, ⟨.iType .ori, 0x3409fd0c, 4⟩,
    ⟨.iType .ori, 0x340a06bb, 8⟩, ⟨.iType .ori, 0x340b1fe0, 12⟩], .halt⟩)]

def collideImage : ImageT where
  fn := some collideT
  imem := collideA.core.imem
  roots := [0]
  stale := false

theorem serve_collideA :
    Memo.init.serve 8 collideA.core.imem 0 [] = some (collideImage, true) := rfl

theorem fn_collideA : ∃ r, collideT.fn 8 collideA.core 0 = some r ∧ r.next = haltedPc := ⟨_, rfl, rfl⟩

/-- The first task leaves its translation under the hash of both. -/
theorem turn_collideA : ∃ p c', Memo.turn 8 [] (Memo.init, collideA, 0) = some (.inr (p, c')) ∧
    p.Sound ∧ p.lastImage = some (fnv1a64 collideA.core.imem.bytes, collideImage) ∧
    p.cache (fnv1a64 collideA.core.imem.bytes) = some collideImage := by
  obtain ⟨r, hr, hnext⟩ := fn_collideA
  have hturn := Memo.turn_of_break serve_collideA rfl hr hnext
  have hkey := Memo.find_of_lastImage (p := Memo.init) rfl collideA.core.imem
  obtain ⟨hcache, hlast⟩ := Memo.served_cache Memo.init collideA.core.imem collideImage true
  rw [hkey] at hcache hlast
  refine ⟨_, _, hturn, ?_, ?_, ?_⟩
  · intro h img himg
    rw [hcache] at himg
    exact (Memo.sound_init.store _ fun _ => ⟨collideT, rfl, rfl⟩) h img himg
  · rw [Memo.lastImage, hlast, Option.bind_some, hcache, Memo.store_self, Option.map_some]
  · rw [hcache, Memo.store_self]

theorem not_clash_init (imem : Image) (cur : Word) (hintRoots : List Word) :
    ¬ Memo.init.Clash imem cur hintRoots := by
  rintro ⟨img, himg, -⟩
  cases himg

theorem session_servesRight_collide : ∃ p, p.Sound ∧
    ((Host.busy p collideB 0 []).ServesRight ↔ ¬ (Host.busy p collideB 0 []).Clash) := by
  obtain ⟨p, c', hturn, -⟩ := turn_collideA
  have hrun : Relation.ReflTransGen (fun s t => ¬ s.Clash ∧ Host.Step s t) (.idle Memo.init)
      (.busy p collideB 0 []) :=
    ((Relation.ReflTransGen.single ⟨id, .call Memo.init collideA 0 []⟩).tail
      ⟨not_clash_init _ _ _, .ret hturn⟩).tail ⟨id, .call p collideB 0 []⟩
  exact ⟨p, Host.session_servesRight hrun⟩

/-- After a run of the first image the second one is served its translation. -/
theorem session_collide :
    ∃ s, Relation.ReflTransGen Host.Step (.idle Memo.init) s ∧ ¬ s.ServesRight := by
  obtain ⟨p, c', hturn, hsound, hlast, hcache⟩ := turn_collideA
  have h1 : Host.Step (.idle Memo.init) (.busy Memo.init collideA 0 []) := .call Memo.init collideA 0 []
  have h2 : Host.Step (.busy Memo.init collideA 0 []) (.idle p) := .ret hturn
  have h3 : Host.Step (.idle p) (.busy p collideB 0 []) := .call p collideB 0 []
  refine ⟨_, ((Relation.ReflTransGen.single h1).tail h2).tail h3, ?_⟩
  have hentry : p.entry collideB.core.imem = some collideImage := by
    simp only [Memo.entry, hlast]
    rw [if_neg (show collideImage.imem ≠ _ from collide_ne), ← fnv1a64_collide, hcache]
  have hclash : p.Clash collideB.core.imem 0 [] := by
    refine ⟨collideImage, hentry, collide_ne, rfl, ?_⟩
    intro r hr
    rw [List.mem_singleton.mp hr]
    exact List.mem_singleton_self _
  intro hright
  exact hsound.servesRight_iff.mp hright hclash

end RspBt
