import RspBt.R4300.CfgEdges

namespace RspBt.R4300

open Lib

def Block.Has (b : Block) (a : Word) : Prop :=
  (∃ i, a = nth b.start i) ∧ b.start ≤ a ∧ a < b.end_

/-- The successors that blocks list are blocks. -/
def Func.Closed (fn : Func) : Prop :=
  ∀ s b, (s, b) ∈ fn.blocks → ∀ t ∈ b.succs, t ∈ fn.blocks.map Prod.fst

namespace Env

/-- Executed when the function is entered at `entry`, slots included. -/
inductive Executed (e : Env) (entry : Word) : Word → Prop
  | reached {a : Word} (h : e.Reached entry a) : Executed e entry a
  | slot {pc : Word} {c : Ctl} (h : e.Reached entry pc) (hc : e.TermAt pc c) :
      Executed e entry (pc + 4)

/-- A `j` or a `jr` whose slot is entered as a target, and falls through, has a target after it. -/
def SlotsFollow (e : Env) (entry : Word) : Prop :=
  ∀ pc c, e.Reached entry pc → e.TermAt pc c → c.k = .jump ∨ c.k = .jr →
    e.Target entry (pc + 4) → e.FallsAt (pc + 4) → e.Target entry (pc + 8)

/-- The code stops short of the last word there is. -/
def BelowTop (e : Env) (entry : Word) : Prop := ∀ a, e.Executed entry a → a < 0xfffffffc

variable {e : Env} {entry s a : Word} {k : ℕ} {stop : Stop}

/-- Where the word after a transfer is a target or cannot be one. -/
theorem Succs.after {pc : Word} {c : Ctl} {l : List Word} (h : e.Succs pc c l)
    (hr : e.Reached entry pc) (hc : e.TermAt pc c) :
    c.k = .jump ∨ c.k = .jr ∨ e.Target entry (pc + 8) := by
  have hmem (hl : pc + 8 ∈ l) : c.k = .jump ∨ c.k = .jr ∨ e.Target entry (pc + 8) :=
    .inr (.inr (.inr ⟨pc, c, l, hr, hc, h, hl⟩))
  cases hk : c.k with
  | jump => exact .inl rfl
  | jr => exact .inr (.inl rfl)
  | fall | trap =>
    simp only [Succs, hk] at h
  | branch | likely =>
    have hl : l = [c.target, pc + 8] := by simpa only [Succs, hk] using h
    rw [hk] at hmem
    exact hmem (by simp [hl])
  | call | jalr =>
    have hl : l = [pc + 8] := by simpa only [Succs, hk] using h
    rw [hk] at hmem
    exact hmem (by simp [hl])

theorem Cut.slot (h : e.Cut (e.Bound entry) s k .bound) {pc : Word} {c : Ctl}
    (hc : e.TermAt pc c) (hk : nth s k = pc + 8) : k = 1 ∧ s = pc + 4 := by
  have hpos : 0 < k := Nat.pos_of_ne_zero fun h0 => h.first h0 rfl
  obtain ⟨j, rfl⟩ : ∃ j, k = j + 1 := ⟨k - 1, by omega⟩
  have hj : nth s j = pc + 4 := by
    have h8 : nth s j + 4 = pc + 4 + 4 := by
      rw [← nth_succ, hk, BitVec.add_assoc]
      rfl
    exact (BitVec.add_left_inj 4).mp h8
  rcases Nat.eq_zero_or_pos j with rfl | hjp
  · rw [nth_zero] at hj
    exact ⟨rfl, hj⟩
  · -- the word before the slot is the transfer, which the scan would not have passed
    obtain ⟨i, rfl⟩ : ∃ i, j = i + 1 := ⟨j - 1, by omega⟩
    rw [nth_succ] at hj
    have hi : nth s i = pc := (BitVec.add_left_inj 4).mp hj
    have hf := h.run i (by omega)
    rw [hi] at hf
    exact absurd hf hc.not_falls

/-- Where the scan of a block runs into a bound, a block begins. -/
theorem SlotsFollow.target (h : e.SlotsFollow entry)
    (hres : ∀ pc c, e.Reached entry pc → e.TermAt pc c → ∃ l, e.Succs pc c l)
    (hmap : ∀ pc, e.Reached entry pc → e.read pc ≠ none)
    (hs : e.Target entry s) (hcut : e.Cut (e.Bound entry) s k .bound) :
    e.Target entry (nth s k) := by
  have hb : e.Bound entry (nth s k) := hcut.stops
  rcases hb with ht | ⟨pc, c, hr, hc, hk⟩ | ⟨hr, hu⟩
  · exact ht
  · obtain ⟨rfl, rfl⟩ := hcut.slot hc hk
    have hf := hcut.run 0 Nat.one_pos
    rw [nth_zero] at hf
    obtain ⟨l, hl⟩ := hres pc c hr hc
    rw [hk]
    rcases hl.after hr hc with hj | hj | ht
    · exact h pc c hr hc (.inl hj) hs hf
    · exact h pc c hr hc (.inr hj) hs hf
    · exact ht
  · exact absurd hu (hmap _ hr)

end Env

open Env

variable {e : Env} {entry s a : Word} {p : Pass1} {fn : Func} {b : Block} {k : ℕ} {stop : Stop}

def Stop.words : Stop → ℕ
  | .unread | .bound => 0
  | .trap => 1
  | .control _ => 2

theorem Stop.past_nth (s : Word) (k : ℕ) (stop : Stop) :
    stop.past (nth s k) = nth s (k + stop.words) := by
  cases stop with
  | unread | bound => rfl
  | trap => exact (nth_succ s k).symm
  | control c =>
    change nth s k + 8 = nth s (k + 1 + 1)
    rw [nth_succ, nth_succ, BitVec.add_assoc]
    rfl

theorem Env.Cut.executed (h : e.Cut (e.Bound entry) s k stop) (hs : e.Target entry s) {i : ℕ}
    (hi : i < k + stop.words) : e.Executed entry (nth s i) := by
  have hreach (hik : i ≤ k) : e.Executed entry (nth s i) :=
    .reached (Run.reached (fun j hj => h.run j (by omega)) hs.reached)
  by_cases hik : i ≤ k
  · exact hreach hik
  · cases stop with
    | unread | bound =>
      simp only [Stop.words] at hi
      omega
    | trap =>
      simp only [Stop.words] at hi
      omega
    | control c =>
      simp only [Stop.words] at hi
      obtain rfl : i = k + 1 := by omega
      rw [nth_succ]
      exact .slot (h.run.reached hs.reached) h.stops

/-- Below the top of memory the words of a block do not wrap. -/
theorem toNat_nth {L : ℕ} (h : ∀ i < L, nth s i < 0xfffffffc) {i : ℕ} (hi : i ≤ L) :
    (nth s i).toNat = s.toNat + 4 * i := by
  induction i with
  | zero => rw [nth_zero, Nat.mul_zero, Nat.add_zero]
  | succ i ih =>
    have hlt : (nth s i).toNat < 0xfffffffc := BitVec.lt_def.mp (h i (by omega))
    have hprev := ih (by omega)
    rw [nth_succ, BitVec.toNat_add, hprev]
    rw [hprev] at hlt
    change (s.toNat + 4 * i + 4) % 2 ^ 32 = _
    omega

theorem Block.Has.lt_top (h : b.Has a) (hend : ∃ j, b.end_ = nth b.start j) : a < 0xfffffffc := by
  obtain ⟨⟨i, rfl⟩, hle, hlt⟩ := h
  obtain ⟨j, hj⟩ := hend
  rw [hj] at hlt
  unfold nth at hle hlt ⊢
  rw [BitVec.le_def, BitVec.toNat_add, BitVec.toNat_ofNat] at hle
  rw [BitVec.lt_def, BitVec.toNat_add, BitVec.toNat_add, BitVec.toNat_ofNat,
    BitVec.toNat_ofNat] at hlt
  rw [BitVec.lt_def, BitVec.toNat_add, BitVec.toNat_ofNat]
  have hs := b.start.isLt
  change _ < 4294967292
  omega

theorem Built.words (h : Built e entry p fn) (hb : (s, b) ∈ fn.blocks) :
    b.start = s ∧ ∃ k stop, e.Cut (e.Bound entry) s k stop ∧ b.end_ = nth s (k + stop.words) := by
  obtain ⟨k, stop, hcut, hstart, hend⟩ := h.scan hb
  refine ⟨hstart, k, stop, hcut, ?_⟩
  rw [hend, Stop.past_nth]

theorem Built.scanned (h : Built e entry p fn) (hf : e.SlotsFollow entry)
    (hmap : ∀ pc, e.Reached entry pc → e.read pc ≠ none) (ha : e.Reached entry a) :
    ∃ s b i, (s, b) ∈ fn.blocks ∧ a = nth s i ∧
      ∃ k stop, e.Cut (e.Bound entry) s k stop ∧ b.end_ = nth s (k + stop.words) ∧
        (i < k ∨ i = k ∧ stop ≠ .bound) := by
  have hself {t : Word} (ht : e.Target entry t) :
      ∃ s b i, (s, b) ∈ fn.blocks ∧ t = nth s i ∧
        ∃ k stop, e.Cut (e.Bound entry) s k stop ∧ b.end_ = nth s (k + stop.words) ∧
          (i < k ∨ i = k ∧ stop ≠ .bound) := by
    obtain ⟨b, hb⟩ := h.block ht
    obtain ⟨-, k, stop, hcut, hend⟩ := h.words hb
    refine ⟨t, b, 0, hb, (nth_zero t).symm, k, stop, hcut, hend, ?_⟩
    rcases Nat.eq_zero_or_pos k with rfl | hk
    · exact .inr ⟨rfl, hcut.first rfl⟩
    · exact .inl hk
  -- the scans go on wherever the walk does
  induction ha with
  | entry => exact hself (.inl rfl)
  | succ hr hc hl ht => exact hself (.inr ⟨_, _, _, hr, hc, hl, ht⟩)
  | fall hr hfalls ih =>
    obtain ⟨s, b, i, hb, rfl, k, stop, hcut, hend, hi⟩ := ih
    have hik : i < k := by
      rcases hi with hik | ⟨rfl, hne⟩
      · exact hik
      · exact absurd hfalls (hcut.stops.not_falls hne)
    rw [← nth_succ]
    -- a scan that stops before a bound leaves the bound to the block that begins there
    by_cases hlast : i + 1 = k ∧ stop = .bound
    · obtain ⟨rfl, rfl⟩ := hlast
      exact hself (hf.target h.resolved hmap (h.target hb) hcut)
    · refine ⟨s, b, i + 1, hb, rfl, k, stop, hcut, hend, ?_⟩
      by_cases hk : i + 1 = k
      · exact .inr ⟨hk, fun hst => hlast ⟨hk, hst⟩⟩
      · exact .inl (by omega)

theorem Built.executed (h : Built e entry p fn) (hf : e.SlotsFollow entry)
    (hmap : ∀ pc, e.Reached entry pc → e.read pc ≠ none) (ha : e.Executed entry a) :
    ∃ s b i, (s, b) ∈ fn.blocks ∧ a = nth s i ∧
      ∃ k stop, e.Cut (e.Bound entry) s k stop ∧ b.end_ = nth s (k + stop.words) ∧
        i < k + stop.words := by
  cases ha with
  | reached hr =>
    obtain ⟨s, b, i, hb, rfl, k, stop, hcut, hend, hi⟩ := h.scanned hf hmap hr
    refine ⟨s, b, i, hb, rfl, k, stop, hcut, hend, ?_⟩
    rcases hi with hik | ⟨rfl, hne⟩
    · omega
    · cases stop with
      | unread => exact absurd hcut.stops (hmap _ hr)
      | bound => exact absurd rfl hne
      | trap | control => simp [Stop.words]
  | slot hr hc =>
    obtain ⟨s, b, i, hb, rfl, k, stop, hcut, hend, hi⟩ := h.scanned hf hmap hr
    have hik : i = k ∧ stop ≠ .bound := by
      rcases hi with hik | hik
      · exact absurd (hcut.run i hik) hc.not_falls
      · exact hik
    obtain ⟨rfl, hne⟩ := hik
    refine ⟨s, b, i + 1, hb, (nth_succ s i).symm, i, stop, hcut, hend, ?_⟩
    cases stop with
    | unread => exact absurd hcut.stops hc.read
    | bound => exact absurd rfl hne
    | trap => exact absurd hcut.stops hc.not_trap
    | control c => simp [Stop.words]

theorem Built.has (h : Built e entry p fn) (hf : e.SlotsFollow entry) (htop : e.BelowTop entry)
    (hmap : ∀ pc, e.Reached entry pc → e.read pc ≠ none) (ha : e.Executed entry a) :
    ∃ s b, (s, b) ∈ fn.blocks ∧ b.Has a := by
  obtain ⟨s, b, i, hb, rfl, k, stop, hcut, hend, hi⟩ := h.executed hf hmap ha
  have hstart := (h.words hb).1
  have hlow (j : ℕ) (hj : j < k + stop.words) : nth s j < 0xfffffffc :=
    htop _ (hcut.executed (h.target hb) hj)
  have hnat (j : ℕ) (hj : j ≤ k + stop.words) : (nth s j).toNat = s.toNat + 4 * j :=
    toNat_nth hlow hj
  refine ⟨s, b, hb, ⟨i, by rw [hstart]⟩, ?_, ?_⟩
  · rw [hstart, BitVec.le_def, hnat i hi.le]
    omega
  · rw [hend, BitVec.lt_def, hnat i hi.le, hnat _ le_rfl]
    omega

theorem Built.closed (h : Built e entry p fn) (hf : e.SlotsFollow entry)
    (hmap : ∀ pc, e.Reached entry pc → e.read pc ≠ none) : fn.Closed := by
  intro s b hb t ht
  rw [h.starts_iff]
  obtain ⟨k, stop, hcut, rfl⟩ := h.blocks s b hb
  rw [(@mkBlock_spec e s (stop.past (nth s k)) p.edges stop).2.2] at ht
  have hedges (ht : t ∈ (p.edges (stop.past (nth s k))).getD []) : e.Target entry t := by
    cases hl : p.edges (stop.past (nth s k)) with
    | none =>
      rw [hl] at ht
      cases ht
    | some l =>
      rw [hl] at ht
      obtain ⟨pc, c, hr, hc, hsucc, -⟩ := (h.done.edges _ l).mp hl
      exact .inr ⟨pc, c, l, hr, hc, hsucc, ht⟩
  cases stop with
  | unread => exact absurd hcut.stops (hmap _ (hcut.run.reached (h.target hb).reached))
  | bound =>
    obtain rfl := List.mem_singleton.mp ht
    exact hf.target h.resolved hmap (h.target hb) hcut
  | trap => exact hedges ht
  | control c => exact hedges ht

/-- A closed graph has a block after every slot that is entered and falls through. -/
theorem Built.slotsFollow (h : Built e entry p fn) (hclosed : fn.Closed) : e.SlotsFollow entry := by
  intro pc c hr hc _ hs hf
  obtain ⟨b, hb⟩ := h.block hs
  obtain ⟨k, stop, hcut, rfl⟩ := h.blocks _ b hb
  have h8 : nth (pc + 4) 1 = pc + 8 := by
    rw [nth_succ, nth_zero, BitVec.add_assoc]
    rfl
  have hbound : e.Bound entry (nth (pc + 4) 1) := .inr (.inl ⟨pc, c, hr, hc, h8⟩)
  -- the slot falls through, so the scan takes it, and stops at the end of the transfer
  have hk : 0 < k := by
    rcases Nat.eq_zero_or_pos k with rfl | hk
    · have hst := hcut.stops.not_falls (hcut.first rfl)
      rw [nth_zero] at hst
      exact absurd hf hst
    · exact hk
  obtain rfl : k = 1 := by
    by_contra hne
    exact hcut.inside 1 Nat.one_pos (by omega) hbound
  obtain rfl : stop = .bound := (hcut.last hk).mpr hbound
  have hsucc := hclosed _ _ hb (pc + 8)
    (by
      rw [(@mkBlock_spec e _ _ p.edges _).2.2, ← h8]
      exact List.mem_singleton.mpr rfl)
  exact h.starts_iff.mp hsucc

/-- The blocks cover what is executed and are closed, for code below the top of memory, exactly
when no `j` or `jr` ends between a slot that is entered and code that only the slot leads to. -/
theorem build_closed_iff {n : ℕ} {log : Log} (h : build e n entry = some (fn, log))
    (hp : log.problems = []) :
    ((∀ a, e.Executed entry a → ∃ s b, (s, b) ∈ fn.blocks ∧ b.Has a) ∧ fn.Closed) ↔
      e.SlotsFollow entry ∧ e.BelowTop entry := by
  obtain ⟨p, hbuilt, rfl⟩ := build_spec h
  have hmap := hbuilt.done.mapped hp
  constructor
  · rintro ⟨hcover, hclosed⟩
    refine ⟨hbuilt.slotsFollow hclosed, fun a ha => ?_⟩
    obtain ⟨s, b, hb, hhas⟩ := hcover a ha
    obtain ⟨hstart, k, stop, -, hend⟩ := hbuilt.words hb
    refine hhas.lt_top ⟨k + stop.words, ?_⟩
    rw [hstart, hend]
  · rintro ⟨hf, htop⟩
    exact ⟨fun a ha => hbuilt.has hf htop hmap ha, hbuilt.closed hf hmap⟩

/-- A branch over a return, to the return's slot. -/
def enteredSlot : Env where
  read a := if a = 0 then some 0x10800002 else if a = 8 ∨ a = 16 then some 0x03e00008
    else if a = 4 ∨ a = 12 ∨ a = 20 then some 0 else none
  hints _ := none

def enteredSlotFunc : Func where
  entry := 0
  leaf := true
  blocks := [(0, ⟨0, 8, [12, 8], false, false, false, false, false, false⟩),
    (8, ⟨8, 16, [], false, true, false, false, false, false⟩),
    (12, ⟨12, 16, [16], false, false, false, false, false, false⟩)]
  calls := []
  indirectSites := []
  unresolvedCalls := 0
  nInsns := 5

theorem build_enteredSlot : build enteredSlot 8 0 = some (enteredSlotFunc, ⟨[], 0, 0, 0⟩) := rfl

theorem build_closed_iff_enteredSlot :
    ((∀ a, enteredSlot.Executed 0 a → ∃ s b, (s, b) ∈ enteredSlotFunc.blocks ∧ b.Has a) ∧
      enteredSlotFunc.Closed) ↔ enteredSlot.SlotsFollow 0 ∧ enteredSlot.BelowTop 0 :=
  build_closed_iff build_enteredSlot rfl

/-- The slot runs on into 16, which is executed, in no block, and listed as a successor. -/
theorem not_build_closed : ∃ fn log, build enteredSlot 8 0 = some (fn, log) ∧
    log.problems = [] ∧
    (enteredSlot.Executed 0 16 ∧ ∀ sb ∈ fn.blocks, ¬ (sb.2.start ≤ 16 ∧ 16 < sb.2.end_)) ∧
    ¬ fn.Closed := by
  have hbranch : enteredSlot.Reached 0 12 :=
    .succ .entry ⟨_, rfl, rfl, by decide, by decide⟩ rfl (List.mem_cons_self ..)
  have hnext : enteredSlot.Reached 0 16 := .fall hbranch ⟨0, rfl, rfl⟩
  refine ⟨_, _, build_enteredSlot, rfl, ⟨.reached hnext, by decide⟩, fun hclosed => ?_⟩
  have hb : (12, ⟨12, 16, [16], false, false, false, false, false, false⟩) ∈
      enteredSlotFunc.blocks := List.mem_cons_of_mem _ (List.mem_cons_of_mem _ (List.mem_cons_self ..))
  have h16 := hclosed _ _ hb 16 (List.mem_singleton.mpr rfl)
  revert h16
  decide

end RspBt.R4300
