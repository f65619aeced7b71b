import Mathlib.Data.Set.Finite.Lattice
import RspBt.R4300.CfgTotal

namespace RspBt.R4300

open Lib

def Log.append (l m : Log) : Log where
  problems := l.problems ++ m.problems
  nJrStatic := l.nJrStatic + m.nJrStatic
  nJrHint := l.nJrHint + m.nJrHint
  nTraps := l.nTraps + m.nTraps

structure Cfg where
  funcs : Word → Option Func
  log : Log
  /-- What `build` was run on, in this order. -/
  builds : List Word

namespace Cfg

def init : Cfg where
  funcs := fun _ => none
  log := ⟨[], 0, 0, 0⟩
  builds := []

/-- `build(f)`, which ends with `funcs[f] = fn`. -/
def record (c : Cfg) (f : Word) (fn : Func) (log : Log) : Cfg where
  funcs := Function.update c.funcs f (some fn)
  log := c.log.append log
  builds := c.builds ++ [f]

def discoverBody (e : Env) (n : ℕ) (st : Cfg × List Word) : Option ((Cfg × List Word) ⊕ Cfg) :=
  match st with
  | (c, []) => some (.inr c)
  | (c, f :: work) =>
    if (c.funcs f).isSome then some (.inl (c, work))
    else
      (build e n f).map fun (fn, log) =>
        let c := c.record f fn log
        .inl (c, work ++ fn.calls.filter fun callee => (c.funcs callee).isNone)

def discover (e : Env) (n : ℕ) (roots : List Word) : Option Cfg :=
  loop (discoverBody e n) n (init, roots)

/-- Called from a root, directly or through functions that were found. -/
inductive Called (funcs : Word → Option Func) (roots : List Word) : Word → Prop
  | root {f : Word} (h : f ∈ roots) : Called funcs roots f
  | call {f callee : Word} {fn : Func} (h : Called funcs roots f) (hf : funcs f = some fn)
      (hc : callee ∈ fn.calls) : Called funcs roots callee

variable {e : Env} {n : ℕ} {roots work : List Word} {c : Cfg} {f : Word} {fn : Func} {log : Log}

theorem Called.mono {funcs funcs' : Word → Option Func}
    (hsub : ∀ f fn, funcs f = some fn → funcs' f = some fn) (h : Called funcs roots f) :
    Called funcs' roots f := by
  induction h with
  | root h => exact .root h
  | call _ hf hc ih => exact .call ih (hsub _ _ hf) hc

structure Inv (e : Env) (n : ℕ) (roots : List Word) (st : Cfg × List Word) : Prop where
  built : ∀ f fn, st.1.funcs f = some fn → ∃ log, build e n f = some (fn, log)
  rooted : ∀ r ∈ roots, (st.1.funcs r).isSome ∨ r ∈ st.2
  calls : ∀ f fn, st.1.funcs f = some fn → ∀ t ∈ fn.calls, (st.1.funcs t).isSome ∨ t ∈ st.2
  called : ∀ f, (st.1.funcs f).isSome ∨ f ∈ st.2 → Called st.1.funcs roots f
  nodup : st.1.builds.Nodup
  builds : ∀ f, f ∈ st.1.builds ↔ (st.1.funcs f).isSome

theorem inv_init (e : Env) (n : ℕ) (roots : List Word) : Inv e n roots (init, roots) where
  built f fn h := by cases h
  rooted r hr := .inr hr
  calls f fn h := by cases h
  called f h := by
    rcases h with h | h
    · cases h
    · exact .root h
  nodup := List.nodup_nil
  builds f := by simp [init]

/-- What was there or waited still does, once `f` is there. -/
theorem found_pop {c' : Cfg} {work' : List Word} {g : Word} (hf : (c'.funcs f).isSome)
    (hc : ∀ g, (c.funcs g).isSome → (c'.funcs g).isSome) (hw : ∀ g ∈ work, g ∈ work')
    (h : (c.funcs g).isSome ∨ g ∈ f :: work) : (c'.funcs g).isSome ∨ g ∈ work' := by
  rcases h with h | h
  · exact .inl (hc g h)
  · rcases List.mem_cons.mp h with rfl | h
    · exact .inl hf
    · exact .inr (hw g h)

theorem Inv.skip (h : Inv e n roots (c, f :: work)) (hf : (c.funcs f).isSome) :
    Inv e n roots (c, work) where
  built := h.built
  rooted r hr := found_pop hf (fun _ hg => hg) (fun _ hg => hg) (h.rooted r hr)
  calls g gn hg t ht := found_pop hf (fun _ hg => hg) (fun _ hg => hg) (h.calls g gn hg t ht)
  called g hg := h.called g (hg.imp id (List.mem_cons_of_mem _))
  nodup := h.nodup
  builds := h.builds

theorem record_isSome (c : Cfg) (f : Word) (fn : Func) (log : Log) (g : Word) :
    ((c.record f fn log).funcs g).isSome ↔ g = f ∨ (c.funcs g).isSome := by
  simp only [record]
  by_cases hg : g = f
  · simp [hg]
  · simp [hg]

theorem record_self (c : Cfg) (f : Word) (fn : Func) (log : Log) :
    (c.record f fn log).funcs f = some fn := Function.update_self ..

theorem record_cases {g : Word} {gn : Func} (hg : (c.record f fn log).funcs g = some gn) :
    g = f ∧ gn = fn ∨ c.funcs g = some gn := by
  by_cases hgf : g = f
  · subst hgf
    exact .inl ⟨rfl, Option.some.inj (hg.symm.trans (record_self ..))⟩
  · right
    rw [← hg]
    exact (Function.update_of_ne hgf ..).symm

theorem record_of_some (hf : c.funcs f = none) {g : Word} {gn : Func} (hg : c.funcs g = some gn) :
    (c.record f fn log).funcs g = some gn := by
  have hne : g ≠ f := by
    rintro rfl
    rw [hf] at hg
    cases hg
  rw [← hg]
  exact Function.update_of_ne hne ..

/-- Building a function puts those of its callees to work that are not there. -/
theorem Inv.record (h : Inv e n roots (c, f :: work)) (hf : c.funcs f = none)
    (hb : build e n f = some (fn, log)) : Inv e n roots (c.record f fn log,
      work ++ fn.calls.filter fun callee => ((c.record f fn log).funcs callee).isNone) := by
  have hself := record_self c f fn log
  have hkept {g : Word} (hg : (c.funcs g).isSome ∨ g ∈ f :: work) :
      ((c.record f fn log).funcs g).isSome ∨
        g ∈ work ++ fn.calls.filter fun callee => ((c.record f fn log).funcs callee).isNone := by
    apply found_pop ((record_isSome ..).mpr (.inl rfl)) _ _ hg
    · exact fun t ht => (record_isSome ..).mpr (.inr ht)
    · exact fun t ht => List.mem_append_left _ ht
  have hcalled {g : Word} (hg : Called c.funcs roots g) :
      Called (c.record f fn log).funcs roots g := hg.mono fun _ _ h => record_of_some hf h
  refine ⟨?_, fun r hr => hkept (h.rooted r hr), ?_, ?_, ?_, ?_⟩
  · intro g gn hg
    rcases record_cases hg with ⟨rfl, rfl⟩ | hg
    · exact ⟨log, hb⟩
    · exact h.built g gn hg
  · intro g gn hg t ht
    rcases record_cases hg with ⟨rfl, rfl⟩ | hg
    · -- a callee is there, or was put to work just now
      by_cases hs : ((c.record g gn log).funcs t).isSome
      · exact .inl hs
      · exact .inr (List.mem_append_right _ (List.mem_filter.mpr ⟨ht, by simpa using hs⟩))
    · exact hkept (h.calls g gn hg t ht)
  · intro g hg
    rw [record_isSome] at hg
    have hroot := hcalled (h.called f (.inr (List.mem_cons_self ..)))
    rcases hg with (rfl | hg) | hg
    · exact hroot
    · exact hcalled (h.called g (.inl hg))
    · rcases List.mem_append.mp hg with hg | hg
      · exact hcalled (h.called g (.inr (List.mem_cons_of_mem _ hg)))
      · exact .call hroot hself (List.mem_filter.mp hg).1
  · have hnew : f ∉ c.builds := by
      rw [h.builds f, hf]
      simp
    exact List.Nodup.append h.nodup (List.nodup_singleton f) (by simpa using hnew)
  · intro g
    rw [record_isSome, ← h.builds g]
    simp [Cfg.record, or_comm]

def Onward (st st' : Cfg × List Word) : Prop :=
  Advances (fun f => (st.1.funcs f).isSome) (fun f => (st'.1.funcs f).isSome) st.2.length st'.2.length

/-- Where `build` ends, so does a turn; it keeps the invariant and moves on. -/
theorem Inv.turn {st : Cfg × List Word} (h : Inv e n roots st)
    (hbuild : ∀ f, ∃ r, build e n f = some r) :
    (∃ c, discoverBody e n st = some (.inr c) ∧ Inv e n roots (c, [])) ∨
      ∃ st', discoverBody e n st = some (.inl st') ∧ Inv e n roots st' ∧ Onward st st' := by
  obtain ⟨c, work⟩ := st
  cases work with
  | nil => exact .inl ⟨c, rfl, h⟩
  | cons f work =>
    by_cases hf : (c.funcs f).isSome
    · refine .inr ⟨(c, work), ?_, h.skip hf, .inr ⟨fun a => Iff.rfl, Nat.lt_succ_self _⟩⟩
      simp only [discoverBody, if_pos hf]
    · obtain ⟨⟨fn, log⟩, hb⟩ := hbuild f
      have hnone : c.funcs f = none := by simpa using hf
      refine .inr ⟨_, ?_, h.record hnone hb, .inl ⟨fun g hg => ?_, f, ?_, hf⟩⟩
      · simp only [discoverBody, if_neg hf, hb, Option.map_some]
      · exact (record_isSome c f fn log g).mpr (.inr hg)
      · exact (record_isSome c f fn log f).mpr (.inl rfl)

theorem discoverBody_congr {m : ℕ} (h : ∀ f, build e n f = build e m f) :
    discoverBody e n = discoverBody e m := by
  funext st
  obtain ⟨c, work⟩ := st
  cases work with
  | nil => rfl
  | cons f work => simp only [discoverBody, h f]

/-- One number of turns is enough to build every function. -/
theorem builds_total (h : e.Unmapped) :
    ∃ N, ∀ f, ∃ r, ∀ n, N ≤ n → build e n f = some r := by
  choose N r hr using build_total h
  obtain ⟨B, hB⟩ := (Set.finite_range N).bddAbove
  exact ⟨B, fun f => ⟨r f, fun n hn => hr f n (le_trans (hB (Set.mem_range_self f)) hn)⟩⟩

/-- The search ends; the roots and the callees of what it found are found, all of it is called
from the roots, and each function was built once. -/
theorem discover_closed (h : e.Unmapped) (roots : List Word) :
    ∃ c N, (∀ n, N ≤ n → discover e n roots = some c) ∧
      (∀ r ∈ roots, (c.funcs r).isSome) ∧
      (∀ f fn, c.funcs f = some fn → ∀ callee ∈ fn.calls, (c.funcs callee).isSome) ∧
      (∀ f, (c.funcs f).isSome → Called c.funcs roots f) ∧
      (∀ f fn, c.funcs f = some fn → ∃ log, ∀ n, N ≤ n → build e n f = some (fn, log)) ∧
      c.builds.Nodup ∧ ∀ f, f ∈ c.builds ↔ (c.funcs f).isSome := by
  obtain ⟨B, hB⟩ := builds_total h
  have hturn (st : Cfg × List Word) (hst : Inv e B roots st) :
      (∃ c, discoverBody e B st = some (.inr c) ∧ Inv e B roots (c, [])) ∨
        ∃ st', discoverBody e B st = some (.inl st') ∧ Inv e B roots st' ∧ Onward st st' := by
    apply hst.turn
    intro f
    obtain ⟨r, hr⟩ := hB f
    exact ⟨r, hr B le_rfl⟩
  obtain ⟨M, c, hloop, hinv⟩ := loop_search
    (fun (st : Cfg × List Word) f => (st.1.funcs f).isSome) (fun st => st.2.length)
    (Inv e B roots) (fun c => Inv e B roots (c, [])) hturn (inv_init e B roots)
  have hsame {n : ℕ} (hn : B ≤ n) (f : Word) : build e n f = build e B f := by
    obtain ⟨r, hr⟩ := hB f
    rw [hr n hn, hr B le_rfl]
  refine ⟨c, max M B, fun n hn => ?_, fun r hr => ?_, fun f fn hf t ht => ?_,
    fun f hf => hinv.called f (.inl hf), fun f fn hf => ?_, hinv.nodup, hinv.builds⟩
  · rw [discover, discoverBody_congr (hsame (le_trans (Nat.le_max_right ..) hn))]
    exact loop_mono_fuel (le_trans (Nat.le_max_left ..) hn) hloop
  · exact (hinv.rooted r hr).resolve_right (List.not_mem_nil)
  · exact (hinv.calls f fn hf t ht).resolve_right (List.not_mem_nil)
  · obtain ⟨log, hlog⟩ := hinv.built f fn hf
    exact ⟨log, fun n hn => (hsame (le_trans (Nat.le_max_right ..) hn) f).trans hlog⟩

/-- `jal 0x40` and `jr $31`, and at 0x40 `jr $31`. -/
def oneCall : Env where
  read a :=
    if a = 0 then some 0x0c000010 else if a = 8 ∨ a = 0x40 then some 0x03e00008
    else if a < 0x48 then some 0 else none
  hints _ := none

theorem discover_closed_oneCall :
    ∃ c N, (∀ n, N ≤ n → discover oneCall n [0] = some c) ∧
      (∀ r ∈ ([0] : List Word), (c.funcs r).isSome) ∧
      (∀ f fn, c.funcs f = some fn → ∀ callee ∈ fn.calls, (c.funcs callee).isSome) ∧
      (∀ f, (c.funcs f).isSome → Called c.funcs [0] f) ∧
      (∀ f fn, c.funcs f = some fn → ∃ log, ∀ n, N ≤ n → build oneCall n f = some (fn, log)) ∧
      c.builds.Nodup ∧ ∀ f, f ∈ c.builds ↔ (c.funcs f).isSome := by
  refine discover_closed (fun r hr => ?_) [0]
  refine ⟨BitVec.ofNat 32 (0x100 + r), ?_, ?_⟩
  · rw [BitVec.toNat_ofNat]
    omega
  · have hall : ∀ r < 4, oneCall.read (BitVec.ofNat 32 (0x100 + r)) = none := by decide
    exact hall r hr

end Cfg

end RspBt.R4300
