import RspBt.R4300.CfgCut

namespace RspBt.R4300

open Lib

def Stop.Succs (e : Env) (pc : Word) : Stop → List Word → Prop
  | .unread, _ => False
  | .trap, l => l = []
  | .control c, l => e.Succs pc c l
  | .bound, l => l = [pc]

structure Block.Flags (b : Block) (stop : Stop) : Prop where
  call : b.endsCall ↔ ∃ c, stop = .control c ∧ (c.k = .call ∨ c.k = .jalr)
  return_ : b.endsReturn ↔ ∃ c, stop = .control c ∧ c.k = .jr ∧ c.reg = 31
  trap : b.endsTrap ↔ stop = .trap
  likely : b.endsLikely ↔ ∃ c, stop = .control c ∧ c.k = .likely
  indirect : b.endsIndirect ↔ ∃ c, stop = .control c ∧ c.k = .jr ∧ c.reg ≠ 31

/-- The block runs to where its code ends, and lists what follows there. -/
def Block.Exact (e : Env) (entry : Word) (b : Block) : Prop :=
  ∃ k stop, e.Cut (e.Bound entry) b.start k stop ∧ b.end_ = stop.past (nth b.start k) ∧
    stop.Succs e (nth b.start k) b.succs ∧ b.Flags stop

/-- A trap that is the slot of a transfer with successors. -/
def Env.SlotTrap (e : Env) (entry s : Word) : Prop :=
  e.TrapAt s ∧ ∃ c l, e.Reached entry (s - 4) ∧ e.TermAt (s - 4) c ∧ e.Succs (s - 4) c l ∧ l ≠ []

variable {e : Env} {entry s pc : Word} {p : Pass1} {fn : Func} {b : Block}
  {edges : Word → Option (List Word)}

theorem mkBlock_spec (stop : Stop) :
    (mkBlock e edges s pc stop).start = s ∧ (mkBlock e edges s pc stop).end_ = pc ∧
      (mkBlock e edges s pc stop).succs =
        match stop with
        | .unread | .bound => [pc]
        | .trap | .control _ => (edges pc).getD [] := by
  cases stop with
  | control c =>
    obtain ⟨k, target, reg⟩ := c
    cases k
    case jr =>
      simp only [mkBlock]
      split_ifs
      · exact ⟨rfl, rfl, rfl⟩
      · exact ⟨rfl, rfl, rfl⟩
    all_goals exact ⟨rfl, rfl, rfl⟩
  | _ => exact ⟨rfl, rfl, rfl⟩

theorem mkBlock_flags (stop : Stop) : (mkBlock e edges s pc stop).Flags stop := by
  cases stop with
  | control c =>
    obtain ⟨k, target, reg⟩ := c
    cases k
    case jr =>
      simp only [mkBlock]
      split_ifs with hreg
      · constructor <;> simp [show reg = 31#5 from hreg]
      · constructor <;> simp [show ¬ reg = 31#5 from hreg]
    all_goals constructor <;> simp [mkBlock]
  | _ => constructor <;> simp [mkBlock]

theorem Built.starts_iff (h : Built e entry p fn) : s ∈ fn.blocks.map Prod.fst ↔ e.Target entry s := by
  rw [h.starts]
  exact h.done.leaders s

theorem Built.target (h : Built e entry p fn) (hb : (s, b) ∈ fn.blocks) : e.Target entry s :=
  h.starts_iff.mp (List.mem_map_of_mem hb)

theorem Built.block (h : Built e entry p fn) (hs : e.Target entry s) : ∃ b, (s, b) ∈ fn.blocks := by
  obtain ⟨⟨s', b⟩, hb, rfl⟩ := List.mem_map.mp (h.starts_iff.mpr hs)
  exact ⟨b, hb⟩

theorem Built.scan (h : Built e entry p fn) (hb : (s, b) ∈ fn.blocks) :
    ∃ k stop, e.Cut (e.Bound entry) s k stop ∧ b.start = s ∧ b.end_ = stop.past (nth s k) := by
  obtain ⟨k, stop, hcut, rfl⟩ := h.blocks s b hb
  obtain ⟨hstart, hend, -⟩ := @mkBlock_spec e s (stop.past (nth s k)) p.edges stop
  exact ⟨k, stop, hcut, hstart, hend⟩

theorem Built.edges_of_term (h : Built e entry p fn) {c : Ctl} (hr : e.Reached entry pc)
    (hc : e.TermAt pc c) : ∃ l, e.Succs pc c l ∧ p.edges (pc + 8) = some l := by
  obtain ⟨l, hl⟩ := h.resolved pc c hr hc
  exact ⟨l, hl, (h.done.edges _ _).mpr ⟨pc, c, hr, hc, hl, rfl⟩⟩

/-- A scan that begins at a readable target does not run into an unreadable word. -/
theorem Env.Cut.not_unread {k : ℕ} (h : e.Cut (e.Bound entry) s k .unread) (hs : e.Target entry s)
    (hr : e.read s ≠ none) : False := by
  have hu : e.read (nth s k) = none := h.stops
  rcases Nat.eq_zero_or_pos k with rfl | hk
  · rw [nth_zero] at hu
    exact hr hu
  · -- it would have been a bound
    have hb : e.Bound entry (nth s k) := .inr (.inr ⟨h.run.reached hs.reached, hu⟩)
    cases (h.last hk).mpr hb

/-- A trap inside a block is no slot of the block's own code. -/
theorem Built.edges_of_trap (h : Built e entry p fn) {k : ℕ} (hk : 0 < k) (hrun : e.Run s k) :
    p.edges (nth s k + 4) = none := by
  obtain ⟨j, rfl⟩ : ∃ j, k = j + 1 := ⟨k - 1, by omega⟩
  by_contra hne
  obtain ⟨l, hl⟩ := Option.ne_none_iff_exists'.mp hne
  obtain ⟨q, c, -, hc, -, hq⟩ := (h.done.edges _ _).mp hl
  have hqj : q = nth s j := by
    rw [nth_succ, BitVec.add_assoc] at hq
    exact ((BitVec.add_left_inj 8).mp hq).symm
  rw [hqj] at hc
  exact hc.not_falls (hrun j (Nat.lt_succ_self j))

/-- The edges under the word after a slot are those of the transfer the slot belongs to. -/
theorem Built.slotTrap_iff (h : Built e entry p fn) :
    e.SlotTrap entry s ↔ e.TrapAt s ∧ (p.edges (s + 4)).getD [] ≠ [] := by
  have hpast : s - 4 + 8 = s + 4 := by
    rw [BitVec.sub_eq_add_neg, BitVec.add_assoc]
    rfl
  unfold Env.SlotTrap
  refine and_congr_right fun _ => ⟨?_, fun hne => ?_⟩
  · rintro ⟨c, l, hreach, hc, hl, hne⟩
    have hed := (h.done.edges _ _).mpr ⟨s - 4, c, hreach, hc, hl, rfl⟩
    rw [← hpast, hed]
    exact hne
  · cases hed : p.edges (s + 4) with
    | none =>
      rw [hed] at hne
      exact absurd rfl hne
    | some l =>
      rw [hed] at hne
      obtain ⟨q, c, hreach, hc, hl, hq⟩ := (h.done.edges _ _).mp hed
      obtain rfl : q = s - 4 := by
        rw [← hpast] at hq
        exact ((BitVec.add_left_inj 8).mp hq).symm
      exact ⟨c, l, hreach, hc, hl, hne⟩

/-- A block is exact when the edges it is given are the successors of the way it ends. -/
theorem mkBlock_exact_iff {k : ℕ} {stop : Stop} (hcut : e.Cut (e.Bound entry) s k stop) :
    (mkBlock e edges s (stop.past (nth s k)) stop).Exact e entry ↔
      stop.Succs e (nth s k) (mkBlock e edges s (stop.past (nth s k)) stop).succs := by
  have hspec := @mkBlock_spec e s (stop.past (nth s k)) edges stop
  obtain ⟨hstart, hend, -⟩ := hspec
  unfold Block.Exact
  rw [hstart]
  constructor
  · rintro ⟨k', stop', hcut', -, hsucc, -⟩
    obtain ⟨rfl, rfl⟩ := hcut.unique hcut'
    exact hsucc
  · intro hsucc
    exact ⟨k, stop, hcut, hend, hsucc, mkBlock_flags stop⟩

theorem Built.exact_iff (h : Built e entry p fn) (hb : (s, b) ∈ fn.blocks) (hr : e.read s ≠ none) :
    b.Exact e entry ↔ ¬ e.SlotTrap entry s := by
  have hs := h.target hb
  obtain ⟨k, stop, hcut, rfl⟩ := h.blocks s b hb
  rw [mkBlock_exact_iff hcut, (@mkBlock_spec e s (stop.past (nth s k)) p.edges stop).2.2]
  -- a block that goes on past its first word does not begin with a trap
  have hfirst (hk : 0 < k) : ¬ e.SlotTrap entry s := by
    have hrun := hcut.run 0 hk
    rw [nth_zero] at hrun
    exact fun hst => hst.1.not_falls hrun
  cases stop with
  | unread => exact (hcut.not_unread hs hr).elim
  | bound =>
    have hk : 0 < k := Nat.pos_of_ne_zero fun h0 => hcut.first h0 rfl
    exact iff_of_true rfl (hfirst hk)
  | control c =>
    have hc : e.TermAt (nth s k) c := hcut.stops
    obtain ⟨l, hl, hed⟩ := h.edges_of_term (hcut.run.reached hs.reached) hc
    refine iff_of_true ?_ ?_
    · simp only [Stop.past, hed, Option.getD_some]
      exact hl
    · rcases Nat.eq_zero_or_pos k with rfl | hk
      · rw [nth_zero] at hc
        exact fun hst => hc.not_trap hst.1
      · exact hfirst hk
  | trap =>
    have htrap : e.TrapAt (nth s k) := hcut.stops
    simp only [Stop.past, Stop.Succs]
    rcases Nat.eq_zero_or_pos k with rfl | hk
    · -- the trap is the first word: it may be the slot of a transfer before the block
      rw [nth_zero] at htrap ⊢
      rw [h.slotTrap_iff, not_and, not_not]
      exact ⟨fun hnil _ => hnil, fun hnil => hnil htrap⟩
    · rw [h.edges_of_trap hk hcut.run]
      exact iff_of_true rfl (hfirst hk)

/-- Every block lists the successors of the way it ends, and its flags agree, unless it begins
with a trap in the slot of a transfer that goes on. -/
theorem build_succs_exact {n : ℕ} {log : Log} (h : build e n entry = some (fn, log))
    (hb : (s, b) ∈ fn.blocks) (hr : e.read s ≠ none) :
    b.start = s ∧ (b.Exact e entry ↔ ¬ e.SlotTrap entry s) := by
  obtain ⟨p, hbuilt, -⟩ := build_spec h
  refine ⟨?_, hbuilt.exact_iff hb hr⟩
  obtain ⟨k, stop, -, rfl⟩ := hbuilt.blocks s b hb
  exact (mkBlock_spec stop).1

/-- A branch to its own slot, where a BREAK stands. -/
def trapSlot : Env where
  read a := if a = 0 then some 0x10000000 else if a = 4 then some 0x0000000d else none
  hints _ := none

def trapSlotFunc : Func where
  entry := 0
  leaf := true
  blocks := [(0, ⟨0, 8, [4, 8], false, false, false, false, false, false⟩),
    (4, ⟨4, 8, [4, 8], false, false, true, false, false, false⟩),
    (8, ⟨8, 8, [8], false, false, false, false, false, false⟩)]
  calls := []
  indirectSites := []
  unresolvedCalls := 0
  nInsns := 3

theorem build_trapSlot :
    build trapSlot 8 0 = some (trapSlotFunc, ⟨[(8, "unmapped instruction")], 0, 0, 1⟩) := rfl

theorem build_succs_exact_branch :
    (0 : Word) = 0 ∧ ((⟨0, 8, [4, 8], false, false, false, false, false, false⟩ : Block).Exact
      trapSlot 0 ↔ ¬ trapSlot.SlotTrap 0 0) :=
  build_succs_exact build_trapSlot (List.mem_cons_self ..) (by decide)

/-- The block of the BREAK is given the successors of the branch. -/
theorem not_build_succs_exact : ∃ fn log b, build trapSlot 8 0 = some (fn, log) ∧
    (4, b) ∈ fn.blocks ∧ trapSlot.read 4 ≠ none ∧ b.endsTrap ∧ b.succs = [4, 8] ∧
    ¬ b.Exact trapSlot 0 := by
  obtain ⟨p, hbuilt, -⟩ := build_spec build_trapSlot
  have hb : (4, ⟨4, 8, [4, 8], false, false, true, false, false, false⟩) ∈ trapSlotFunc.blocks :=
    List.mem_cons_of_mem _ (List.mem_cons_self ..)
  have hslot : trapSlot.SlotTrap 0 4 :=
    ⟨⟨_, rfl, rfl⟩, ⟨.branch, 4, 0⟩, [4, 8], .entry, ⟨_, rfl, rfl, by decide, by decide⟩, rfl,
      by decide⟩
  refine ⟨_, _, _, build_trapSlot, hb, by decide, rfl, rfl, fun hexact => ?_⟩
  exact (hbuilt.exact_iff hb (by decide)).mp hexact hslot

end RspBt.R4300
