import Mathlib.Logic.Relation
import RspBt.Bt.Contexts

namespace RspBt

namespace Contexts

/-- `static_cast<uint32_t>(contexts.size())` -/
def freshId (c : Contexts) : ℕ := c.contexts.length % 2 ^ 32

def pushCtx32 (c : Contexts) (ctxId : ℕ) (link : Word) : Contexts × ℕ :=
  let cs := c.str ctxId
  if maxCallDepth ≤ cs.length then (c, 0)
  else
    let cs := cs ++ [link]
    match c.contextIds cs with
    | some id => (c, id)
    | none =>
      ({ contexts := c.contexts ++ [cs]
         contextIds := Function.update c.contextIds cs (some c.freshId) }, c.freshId)

def Fits (c : Contexts) : Prop := c.contexts.length ≤ 2 ^ 32

theorem pushCtx32_le (c : Contexts) (id : ℕ) (link : Word) : Le c (c.pushCtx32 id link).1 := by
  unfold pushCtx32
  simp only
  split_ifs
  · exact Le.refl c
  · split
    · exact Le.refl c
    · exact List.prefix_append _ _

theorem contextIds_pushCtx32 {c : Contexts} {id j : ℕ} {link : Word} {cs : CallString}
    (h : (c.pushCtx32 id link).1.contextIds cs = some j) :
    c.contextIds cs = some j ∨ j = c.freshId := by
  unfold pushCtx32 at h
  simp only at h
  split_ifs at h
  · exact .inl h
  · split at h
    · exact .inl h
    · by_cases hcs : cs = c.str id ++ [link]
      · simp only [hcs, Function.update_self, Option.some.injEq] at h
        exact .inr h.symm
      · simp only [Function.update_of_ne hcs] at h
        exact .inl h

theorem Fits.of_le {c d : Contexts} (hd : d.Fits) (h : Le c d) : c.Fits := h.length.trans hd

theorem pushCtx32_eq {c : Contexts} {id : ℕ} {link : Word} (h : (c.pushCtx32 id link).1.Fits) :
    c.pushCtx32 id link = c.pushCtx id link := by
  unfold pushCtx32 at h
  unfold pushCtx32 pushCtx
  simp only at h ⊢
  split_ifs at h ⊢
  · rfl
  · cases hid : c.contextIds (c.str id ++ [link]) with
    | some j => rfl
    | none =>
      simp only [hid, Fits, List.length_append, List.length_singleton] at h
      have hfresh : c.freshId = c.contexts.length := Nat.mod_eq_of_lt (by omega)
      simp only [hfresh, add]

end Contexts

open Contexts

structure Issued where
  table : Contexts
  ids : List ℕ

namespace Issued

def start : Issued := ⟨Contexts.init, [0]⟩

def push (s : Issued) (id : ℕ) (link : Word) : Issued :=
  ⟨(s.table.pushCtx32 id link).1, (s.table.pushCtx32 id link).2 :: s.ids⟩

def Push (s t : Issued) : Prop := ∃ id ∈ s.ids, ∃ link, t = s.push id link

abbrev Pushes : Issued → Issued → Prop := Relation.ReflTransGen Push

/-- Ids and strings are in step, and a pop finds its context. -/
structure Kept (s : Issued) : Prop where
  inverse : ∀ cs id, s.table.contextIds cs = some id ↔ s.table.contexts[id]? = some cs
  known : ∀ id ∈ s.ids, id < s.table.contexts.length
  root : s.table.contexts[0]? = some []
  depth : ∀ cs ∈ s.table.contexts, cs.length ≤ maxCallDepth
  prefixes : ∀ cs ∈ s.table.contexts, ∀ ds, ds <+: cs → ds ∈ s.table.contexts
  pops : ∀ id ∈ s.ids, id ≠ 0 → s.table.str id ≠ [] ∧ ∃ j ∈ s.ids, s.table.popCtx id = some j

structure PushKept (s : Issued) (id : ℕ) (link : Word) : Prop where
  pop : (s.table.str id).length < maxCallDepth →
    (s.push id link).table.popCtx (s.table.pushCtx32 id link).2 = some id
  last : (s.table.str id).length < maxCallDepth →
    ((s.push id link).table.str (s.table.pushCtx32 id link).2).getLast? = some link
  deep : maxCallDepth ≤ (s.table.str id).length → s.table.pushCtx32 id link = (s.table, 0)

def Stable (s t : Issued) : Prop :=
  ∀ id ∈ s.ids, t.table.contexts[id]? = s.table.contexts[id]? ∧
    t.table.contextIds (s.table.str id) = some id

variable {s t : Issued}

theorem Push.le (h : s.Push t) : Le s.table t.table := by
  obtain ⟨id, -, link, rfl⟩ := h
  exact pushCtx32_le s.table id link

theorem Pushes.le (h : s.Pushes t) : Le s.table t.table := by
  induction h with
  | refl => exact Le.refl _
  | tail _ hlast ih => exact ih.trans hlast.le

structure Good (s : Issued) : Prop where
  wf : s.table.WF
  ids : ∀ id, id ∈ s.ids ↔ id < s.table.contexts.length

theorem start_good : start.Good where
  wf := init_wf
  ids := by
    intro id
    simp [start, Contexts.init]

theorem lt_length_pushCtx (c : Contexts) (id : ℕ) (link : Word) {j : ℕ}
    (h : j < (c.pushCtx id link).1.contexts.length) :
    j < c.contexts.length ∨ j = (c.pushCtx id link).2 := by
  unfold pushCtx at h ⊢
  simp only at h ⊢
  split_ifs at h ⊢
  · exact .inl h
  · split at h
    · exact .inl h
    · simp only [add, List.length_append, List.length_singleton] at h
      simp only
      omega

theorem Good.push (h : s.Good) {id : ℕ} (hid : id ∈ s.ids) {link : Word}
    (hfits : (s.push id link).table.Fits) : (s.push id link).Good := by
  obtain ⟨hwf, hnew⟩ := h.wf.pushCtx ((h.ids id).mp hid) link
  have heq : s.push id link =
      ⟨(s.table.pushCtx id link).1, (s.table.pushCtx id link).2 :: s.ids⟩ := by
    rw [Issued.push, pushCtx32_eq hfits]
  rw [heq]
  refine ⟨hwf, fun j => ?_⟩
  constructor
  · intro hj
    rcases List.mem_cons.mp hj with rfl | hold
    · exact hnew
    · exact ((h.ids j).mp hold).trans_le (pushCtx_le s.table id link).length
  · intro hj
    rcases lt_length_pushCtx s.table id link hj with hold | rfl
    · exact List.mem_cons_of_mem _ ((h.ids j).mpr hold)
    · exact List.mem_cons_self

theorem Good.pushes (h : s.Good) (hrun : s.Pushes t) (hfits : t.table.Fits) : t.Good := by
  induction hrun with
  | refl => exact h
  | tail _ hlast ih =>
    have hmid := ih (hfits.of_le hlast.le)
    obtain ⟨id, hid, link, rfl⟩ := hlast
    exact hmid.push hid hfits

theorem Good.kept (h : s.Good) : s.Kept where
  inverse := h.wf.ids
  known := fun id hid => (h.ids id).mp hid
  root := h.wf.root
  depth := h.wf.depth
  prefixes := fun cs hcs ds hds => h.wf.prefix_mem hcs hds
  pops := by
    intro id hid h0
    have hlt := (h.ids id).mp hid
    obtain ⟨j, hpop, hj, -⟩ := h.wf.popCtx_isSome hlt
    exact ⟨h.wf.str_ne_nil hlt h0, j, (h.ids j).mpr hj, hpop⟩

theorem Good.pushKept (h : s.Good) {id : ℕ} (hid : id ∈ s.ids) {link : Word}
    (hfits : (s.push id link).table.Fits) : s.PushKept id link := by
  have hlt := (h.ids id).mp hid
  have heq : s.table.pushCtx32 id link = s.table.pushCtx id link := pushCtx32_eq hfits
  obtain ⟨hwf, -⟩ := h.wf.pushCtx hlt link
  -- the string of the answer
  have hstr : (s.table.str id).length < maxCallDepth →
      (s.table.pushCtx id link).1.str (s.table.pushCtx id link).2 = s.table.str id ++ [link] :=
    fun hdeep => hwf.str_of_id (contextIds_pushCtx hdeep link)
  constructor
  · intro hdeep
    rw [Issued.push, heq, popCtx, hstr hdeep, List.dropLast_concat,
      ← (pushCtx_le s.table id link).str hlt]
    exact hwf.id_of_str (hlt.trans_le (pushCtx_le s.table id link).length)
  · intro hdeep
    rw [Issued.push, heq, hstr hdeep, List.getLast?_concat]
  · intro hdeep
    rw [pushCtx32]
    exact if_pos hdeep

theorem Good.stable (h : s.Good) (ht : t.Good) (hle : Le s.table t.table) : s.Stable t := by
  intro id hid
  have hlt := (h.ids id).mp hid
  have hlt' := hlt.trans_le hle.length
  have hstr := hle.str hlt
  rw [WF.getElem?_str hlt', WF.getElem?_str hlt, ← hstr]
  exact ⟨rfl, ht.wf.id_of_str hlt'⟩

theorem keeps_of_fits (h : start.Pushes s) (hfits : s.table.Fits) :
    s.Kept ∧
      (∀ id ∈ s.ids, ∀ link, (s.push id link).table.Fits → s.PushKept id link) ∧
      ∀ t, s.Pushes t → t.table.Fits → s.Stable t := by
  have hs := start_good.pushes h hfits
  refine ⟨hs.kept, fun id hid link => hs.pushKept hid, fun t hrun ht => ?_⟩
  exact hs.stable (hs.pushes hrun ht) hrun.le

theorem keeps_of_fits_twoCalls :
    let s := (start.push 0 0x44).push 1 0x88
    s.table.contexts = [[], [0x44], [0x44, 0x88]] ∧ s.PushKept 1 0x88 ∧ s.Kept ∧
      s.Stable (s.push 2 0x44) := by
  have hrun : start.Pushes ((start.push 0 0x44).push 1 0x88) :=
    (Relation.ReflTransGen.single ⟨0, by decide, _, rfl⟩).tail ⟨1, by decide, _, rfl⟩
  obtain ⟨hkept, hpush, hstable⟩ := keeps_of_fits hrun (by unfold Fits; decide)
  exact ⟨by decide, hpush 1 (by decide) _ (by unfold Fits; decide), hkept,
    hstable _ (.single ⟨2, by decide, _, rfl⟩) (by unfold Fits; decide)⟩

/-- Calls from the empty string, with the links `0`, `1`, ... -/
def fan : ℕ → Issued
  | 0 => start
  | k + 1 => (fan k).push 0 (BitVec.ofNat 32 k)

theorem fan_pushes (k : ℕ) : start.Pushes (fan k) ∧ 0 ∈ (fan k).ids := by
  induction k with
  | zero => exact ⟨.refl, List.mem_singleton.mpr rfl⟩
  | succ k ih => exact ⟨ih.1.tail ⟨0, ih.2, _, rfl⟩, List.mem_cons_of_mem _ ih.2⟩

theorem fan_contexts (k : ℕ) (hk : k ≤ 2 ^ 32) :
    (fan k).table.contexts = [] :: (List.range k).map (fun i => [BitVec.ofNat 32 i]) := by
  induction k with
  | zero => rfl
  | succ k ih =>
    have hold := ih (by omega)
    have hfits : (fan k).table.Fits := by
      rw [Fits, hold, List.length_cons, List.length_map, List.length_range]
      exact hk
    have hwf := (start_good.pushes (fan_pushes k).1 hfits).wf
    have hnone : (fan k).table.contextIds [BitVec.ofNat 32 k] = none := by
      rw [Option.eq_none_iff_forall_ne_some]
      intro id hid
      have hmem := List.mem_of_getElem? ((hwf.ids _ _).mp hid)
      rw [hold] at hmem
      obtain ⟨i, hi, heq⟩ := List.mem_map.mp (List.mem_of_ne_of_mem (List.cons_ne_nil _ _) hmem)
      have hval := congrArg BitVec.toNat (List.head_eq_of_cons_eq heq)
      rw [BitVec.toNat_ofNat, BitVec.toNat_ofNat] at hval
      have hlt := List.mem_range.mp hi
      omega
    have hzero : (fan k).table.str 0 = [] := hwf.str_zero
    have hdeep : ¬ maxCallDepth ≤ ([] : CallString).length := by decide
    simp only [fan, push, pushCtx32, hzero, if_neg hdeep, List.nil_append, hnone]
    rw [hold, List.range_succ, List.map_append, List.map_singleton, List.cons_append]

/-- No id is wider than 32 bits. -/
theorem ids_lt (h : start.Pushes s) :
    ∀ cs id, s.table.contextIds cs = some id → id < 2 ^ 32 := by
  induction h with
  | refl =>
    intro cs id hid
    have := init_wf.lt_of_id hid
    simp only [Contexts.init, List.length_singleton] at this
    omega
  | tail _ hlast ih =>
    obtain ⟨i, -, link, rfl⟩ := hlast
    intro cs id hid
    rcases contextIds_pushCtx32 hid with hold | rfl
    · exact ih cs id hold
    · exact Nat.mod_lt _ (by omega)

/-- After `2^32` calls from the empty string a string of the table has no id. -/
theorem not_keeps : ¬ ∀ s, start.Pushes s → s.Kept ∧
    (∀ id ∈ s.ids, ∀ link, s.PushKept id link) ∧ ∀ t, s.Pushes t → s.Stable t := by
  obtain ⟨k, hk⟩ : ∃ k, k = 2 ^ 32 := ⟨_, rfl⟩
  intro h
  obtain ⟨hrun, -⟩ := fan_pushes k
  have hlast : (fan k).table.contexts[k]? = some [BitVec.ofNat 32 (k - 1)] := by
    rw [fan_contexts k hk.le]
    obtain ⟨j, rfl⟩ : ∃ j, k = j + 1 := ⟨k - 1, by omega⟩
    rw [List.getElem?_cons_succ, List.getElem?_map, List.getElem?_range (by omega)]
    rfl
  have hid := ((h _ hrun).1.inverse _ _).mpr hlast
  exact absurd (ids_lt hrun _ _ hid) (by omega)

end Issued

end RspBt
