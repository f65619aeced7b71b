import Mathlib.Data.List.GetD
import RspBt.Lib.OrdSet
import RspBt.Rsp.State

namespace RspBt

/-- Return addresses, innermost last. -/
abbrev CallString := List Word

def maxCallDepth : ℕ := 4

structure Contexts where
  /-- id to call string -/
  contexts : List CallString
  contextIds : CallString → Option ℕ

namespace Contexts

def init : Contexts where
  contexts := [[]]
  contextIds := Function.update (fun _ => none) [] (some 0)

def str (c : Contexts) (ctxId : ℕ) : CallString := c.contexts.getD ctxId []

def add (c : Contexts) (cs : CallString) : Contexts where
  contexts := c.contexts ++ [cs]
  contextIds := Function.update c.contextIds cs (some c.contexts.length)

/-- Too deep a string is not specialised: the call goes to context 0. -/
def pushCtx (c : Contexts) (ctxId : ℕ) (link : Word) : Contexts × ℕ :=
  let cs := c.str ctxId
  if maxCallDepth ≤ cs.length then (c, 0)
  else
    let cs := cs ++ [link]
    match c.contextIds cs with
    | some id => (c, id)
    | none => (c.add cs, c.contexts.length)

/-- How a push gives ids, which the code does in 32 bits. -/
class Ids where
  pushCtx : Contexts → ℕ → Word → Contexts × ℕ

instance : Ids := ⟨pushCtx⟩

/-- `contextIds.at` throws on a string that is not in the table. -/
def popCtx (c : Contexts) (ctxId : ℕ) : Option ℕ := c.contextIds (c.str ctxId).dropLast

structure WF (c : Contexts) : Prop where
  ids : ∀ cs id, c.contextIds cs = some id ↔ c.contexts[id]? = some cs
  root : c.contexts[0]? = some []
  closed : ∀ cs ∈ c.contexts, cs.dropLast ∈ c.contexts
  depth : ∀ cs ∈ c.contexts, cs.length ≤ maxCallDepth

def Le (c d : Contexts) : Prop := c.contexts <+: d.contexts

theorem init_wf : init.WF where
  ids := by
    intro cs id
    rcases id with _ | id
    · by_cases h : cs = []
      · subst h
        simp [init]
      · simp [init, h, eq_comm]
    · by_cases h : cs = []
      · subst h
        simp [init]
      · simp [init, h]
  root := rfl
  closed := by simp [init]
  depth := by simp [init]

theorem Le.refl (c : Contexts) : Le c c := List.prefix_rfl

theorem Le.trans {c d e : Contexts} (h : Le c d) (h' : Le d e) : Le c e := List.IsPrefix.trans h h'

theorem Le.length {c d : Contexts} (h : Le c d) : c.contexts.length ≤ d.contexts.length :=
  List.IsPrefix.length_le h

theorem Le.str {c d : Contexts} (h : Le c d) {id : ℕ} (hid : id < c.contexts.length) :
    d.str id = c.str id := by
  obtain ⟨t, ht⟩ := h
  rw [Contexts.str, Contexts.str, ← ht, List.getD_append _ _ _ _ hid]

namespace WF

theorem nodup {c : Contexts} (h : c.WF) : c.contexts.Nodup := by
  rw [List.nodup_iff_getElem?_ne_getElem?]
  intro i j hij hj heq
  have hcs : c.contexts[j]? = some c.contexts[j] := List.getElem?_eq_getElem hj
  have h1 := (h.ids _ _).mpr (heq.trans hcs)
  have h2 := (h.ids _ _).mpr hcs
  have := Option.some.inj (h1.symm.trans h2)
  omega

theorem getElem?_str {c : Contexts} {id : ℕ} (hid : id < c.contexts.length) :
    c.contexts[id]? = some (c.str id) := by
  rw [Contexts.str, List.getElem?_eq_getElem hid, List.getD_eq_getElem _ _ hid]

theorem id_of_str {c : Contexts} (h : c.WF) {id : ℕ} (hid : id < c.contexts.length) :
    c.contextIds (c.str id) = some id := (h.ids _ _).mpr (getElem?_str hid)

theorem lt_of_id {c : Contexts} (h : c.WF) {cs : CallString} {id : ℕ}
    (hid : c.contextIds cs = some id) : id < c.contexts.length := by
  have := (h.ids _ _).mp hid
  exact (List.getElem?_eq_some_iff.mp this).1

theorem str_of_id {c : Contexts} (h : c.WF) {cs : CallString} {id : ℕ}
    (hid : c.contextIds cs = some id) : c.str id = cs := by
  have h1 := (h.ids _ _).mp hid
  have h2 := getElem?_str (h.lt_of_id hid)
  exact Option.some.inj (h2.symm.trans h1)

theorem pos {c : Contexts} (h : c.WF) : 0 < c.contexts.length :=
  (List.getElem?_eq_some_iff.mp h.root).1

theorem str_zero {c : Contexts} (h : c.WF) : c.str 0 = [] :=
  Option.some.inj ((getElem?_str h.pos).symm.trans h.root)

theorem str_ne_nil {c : Contexts} (h : c.WF) {id : ℕ} (hid : id < c.contexts.length)
    (h0 : id ≠ 0) : c.str id ≠ [] := by
  intro hnil
  have h1 := h.id_of_str hid
  have h2 := h.id_of_str h.pos
  rw [h.str_zero] at h2
  rw [hnil, h2] at h1
  exact h0 (Option.some.inj h1).symm

/-- A pop finds its context: the table has every prefix of a string in it. -/
theorem popCtx_isSome {c : Contexts} (h : c.WF) {id : ℕ} (hid : id < c.contexts.length) :
    ∃ j, c.popCtx id = some j ∧ j < c.contexts.length ∧ c.str j = (c.str id).dropLast := by
  have hmem : c.str id ∈ c.contexts := List.mem_of_getElem? (getElem?_str hid)
  obtain ⟨j, hj, hjs⟩ := List.mem_iff_getElem.mp (h.closed _ hmem)
  have hpop : c.popCtx id = some j := by
    rw [popCtx, h.ids, List.getElem?_eq_getElem hj, hjs]
  exact ⟨j, hpop, hj, h.str_of_id hpop⟩

theorem prefix_mem {c : Contexts} (h : c.WF) {cs ds : CallString} (hcs : cs ∈ c.contexts)
    (hpre : ds <+: cs) : ds ∈ c.contexts := by
  induction cs using List.reverseRecOn with
  | nil => rwa [List.prefix_nil.mp hpre]
  | append_singleton cs link ih =>
    rcases List.prefix_concat_iff.mp hpre with rfl | hshort
    · exact hcs
    · have hup : (cs ++ [link]).dropLast ∈ c.contexts := h.closed _ hcs
      rw [List.dropLast_concat] at hup
      exact ih hup hshort

end WF

theorem pushCtx_le (c : Contexts) (id : ℕ) (link : Word) : Le c (c.pushCtx id link).1 := by
  unfold pushCtx
  simp only
  split_ifs
  · exact Le.refl c
  · split
    · exact Le.refl c
    · exact List.prefix_append _ _

theorem WF.add {c : Contexts} (h : c.WF) {cs : CallString} (hnew : cs ∉ c.contexts)
    (hpre : cs.dropLast ∈ c.contexts) (hlen : cs.length ≤ maxCallDepth) : (c.add cs).WF where
  -- the new string has the next id, every other string the one it had
  ids := by
    intro ds j
    by_cases hds : ds = cs
    · simp only [hds, Contexts.add, Function.update_self]
      rw [List.getElem?_append]
      split_ifs with hj
      · constructor
        · intro hs
          have := Option.some.inj hs
          omega
        · intro hs
          exact absurd (List.mem_of_getElem? hs) hnew
      · rw [List.getElem?_singleton]
        split_ifs with hz
        · simp only [Option.some.injEq, iff_true]
          omega
        · simp only [Option.some.injEq, iff_false]
          omega
    · simp only [Contexts.add, Function.update_of_ne hds]
      rw [h.ids, List.getElem?_append]
      split_ifs with hj
      · rfl
      · rw [List.getElem?_eq_none (by omega), List.getElem?_singleton]
        split_ifs
        · simp only [Option.some.injEq, false_iff]
          exact fun heq => hds heq.symm
        · rfl
  root := by
    rw [Contexts.add, List.getElem?_append_left h.pos]
    exact h.root
  closed := by
    intro ds hds
    rcases List.mem_append.mp hds with hold | hlast
    · exact List.mem_append_left _ (h.closed ds hold)
    · rw [List.mem_singleton.mp hlast]
      exact List.mem_append_left _ hpre
  depth := by
    intro ds hds
    rcases List.mem_append.mp hds with hold | hlast
    · exact h.depth ds hold
    · rwa [List.mem_singleton.mp hlast]

theorem WF.pushCtx {c : Contexts} (h : c.WF) {id : ℕ} (hid : id < c.contexts.length) (link : Word) :
    (c.pushCtx id link).1.WF ∧ (c.pushCtx id link).2 < (c.pushCtx id link).1.contexts.length := by
  unfold Contexts.pushCtx
  simp only
  split_ifs with hd
  · exact ⟨h, h.pos⟩
  · split
    · rename_i j hj
      exact ⟨h, h.lt_of_id hj⟩
    · rename_i hnone
      have hnew : c.str id ++ [link] ∉ c.contexts := by
        intro hmem
        obtain ⟨j, hj, hjs⟩ := List.mem_iff_getElem.mp hmem
        have hsome : c.contextIds (c.str id ++ [link]) = some j := by
          rw [h.ids, List.getElem?_eq_getElem hj, hjs]
        rw [hnone] at hsome
        cases hsome
      have hpre : (c.str id ++ [link]).dropLast ∈ c.contexts := by
        rw [List.dropLast_concat]
        exact List.mem_of_getElem? (WF.getElem?_str hid)
      have hlen : (c.str id ++ [link]).length ≤ maxCallDepth := by
        rw [List.length_append, List.length_singleton]
        omega
      exact ⟨h.add hnew hpre hlen, by simp [Contexts.add]⟩

/-- Where the string is not too deep, the answer is the id of the longer one. -/
theorem contextIds_pushCtx {c : Contexts} {id : ℕ} (hdeep : (c.str id).length < maxCallDepth)
    (link : Word) :
    (c.pushCtx id link).1.contextIds (c.str id ++ [link]) = some (c.pushCtx id link).2 := by
  simp only [Contexts.pushCtx, if_neg (Nat.not_le.mpr hdeep)]
  split
  · rename_i j hj
    exact hj
  · exact Function.update_self ..

theorem popCtx_of_le {c d : Contexts} (hc : c.WF) (hd : d.WF) (hle : c.Le d) {id j : ℕ}
    (hid : id < c.contexts.length) (h : c.popCtx id = some j) : d.popCtx id = some j := by
  obtain ⟨t, ht⟩ := hle
  have hstr : d.str id = c.str id := Le.str ⟨t, ht⟩ hid
  have hget := (hc.ids _ _).mp h
  rw [popCtx, hstr, hd.ids, ← ht, List.getElem?_append_left (hc.lt_of_id h)]
  exact hget

/-- What a push answers is decided by the string, and so is the same in a larger table. -/
theorem pushCtx_of_le {c d : Contexts} (hc : c.WF) (hd : d.WF) {id : ℕ}
    (hid : id < c.contexts.length) {link : Word} (hle : Le (c.pushCtx id link).1 d) :
    d.pushCtx id link = (d, (c.pushCtx id link).2) := by
  have hstr : d.str id = c.str id := ((pushCtx_le c id link).trans hle).str hid
  by_cases hdeep : maxCallDepth ≤ (c.str id).length
  · simp only [Contexts.pushCtx, hstr, if_pos hdeep]
  · have hnew : (c.pushCtx id link).1.contextIds (c.str id ++ [link]) =
        some (c.pushCtx id link).2 := by
      simp only [Contexts.pushCtx, if_neg hdeep]
      split
      · rename_i j hj
        exact hj
      · exact Function.update_self ..
    obtain ⟨hwf, hlt⟩ := hc.pushCtx hid link
    have hget := (hwf.ids _ _).mp hnew
    obtain ⟨t, ht⟩ := hle
    have hd' : d.contextIds (c.str id ++ [link]) = some (c.pushCtx id link).2 := by
      rw [hd.ids, ← ht, List.getElem?_append_left hlt]
      exact hget
    rw [Contexts.pushCtx]
    simp only [hstr, if_neg hdeep, hd']

end Contexts

end RspBt
