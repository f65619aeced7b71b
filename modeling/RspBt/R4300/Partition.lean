import Mathlib.Combinatorics.Enumerative.DoubleCounting
import Mathlib.Data.BitVec
import Mathlib.Data.Set.Card
import RspBt.R4300.CallGraph
import RspBt.R4300.CfgClosed

namespace RspBt.R4300

open Lib Env

def Env.EnteredSlot (e : Env) (entry a : Word) : Prop :=
  e.Target entry a ∧ ∃ pc c, e.Reached entry pc ∧ e.TermAt pc c ∧ a = pc + 4

/-- The starts of the blocks that have the instruction at `a`. -/
def Func.holders (fn : Func) (a : Word) : Set Word := {s | ∃ b, (s, b) ∈ fn.blocks ∧ b.Has a}

variable {e : Env} {entry s s' a : Word} {p q : Pass1} {fn : Func} {b b' : Block} {k k' n : ℕ}
  {stop stop' : Stop} {log : Log}

theorem nth_add (s : Word) (i j : ℕ) : nth s (i + j) = nth (nth s i) j := by
  rw [nth, nth, nth, Nat.mul_add, BitVec.ofNat_add, BitVec.add_assoc]

theorem nth_left_inj {i : ℕ} : nth s i = nth s' i ↔ s = s' := BitVec.add_left_inj _

/-- The only bound a scan passes is the slot of the transfer that ends it. -/
theorem Env.Cut.passes (h : e.Cut (e.Bound entry) s k stop) {m : ℕ} (hm : 0 < m)
    (hlt : m < k + stop.words) (hb : e.Bound entry (nth s m)) :
    m = k + 1 ∧ ∃ c, stop = .control c := by
  have hkm : k ≤ m := by
    by_contra hmk
    exact h.inside m hm (by omega) hb
  have hne : stop ≠ .bound := by
    rintro rfl
    simp only [Stop.words] at hlt
    omega
  have hmk : m ≠ k := by
    rintro rfl
    exact hne ((h.last hm).mpr hb)
  cases stop with
  | unread | bound =>
    simp only [Stop.words] at hlt
    omega
  | trap =>
    simp only [Stop.words] at hlt
    omega
  | control c =>
    simp only [Stop.words] at hlt
    exact ⟨by omega, c, rfl⟩

theorem Env.Cut.enteredSlot {c : Ctl} (h : e.Cut (e.Bound entry) s k (.control c))
    (hs : e.Target entry s) (ht : e.Target entry (nth s (k + 1))) :
    e.EnteredSlot entry (nth s (k + 1)) :=
  ⟨ht, nth s k, c, h.run.reached hs.reached, h.stops, nth_succ s k⟩

/-- Where the scan of one target meets another's, the other one begins, at an entered slot. -/
theorem Env.Cut.meets (h : e.Cut (e.Bound entry) s k stop) (hs : e.Target entry s)
    (hs' : e.Target entry s') (hne : s ≠ s') {i j : ℕ} (hi : i < k + stop.words) (hji : j ≤ i)
    (heq : nth s i = nth s' j) : j = 0 ∧ e.EnteredSlot entry (nth s i) := by
  have hm : nth s (i - j) = s' := by
    rw [← nth_left_inj (i := j), ← nth_add, Nat.sub_add_cancel hji, heq]
  have hpos : 0 < i - j := by
    apply Nat.pos_of_ne_zero
    intro h0
    rw [h0, nth_zero] at hm
    exact hne hm
  have hb : e.Bound entry (nth s (i - j)) := .inl (hm ▸ hs')
  obtain ⟨hik, c, rfl⟩ := h.passes hpos (by omega) hb
  simp only [Stop.words] at hi
  obtain rfl : j = 0 := by omega
  obtain rfl : i = k + 1 := by omega
  exact ⟨rfl, h.enteredSlot hs (hm ▸ hs')⟩

theorem Env.Cut.toNat_nth (h : e.Cut (e.Bound entry) s k stop) (htop : e.BelowTop entry)
    (hs : e.Target entry s) {i : ℕ} (hi : i ≤ k + stop.words) :
    (nth s i).toNat = s.toNat + 4 * i :=
  R4300.toNat_nth (fun _ hj => htop _ (h.executed hs hj)) hi

theorem Built.has_iff (h : Built e entry p fn) (htop : e.BelowTop entry) (hb : (s, b) ∈ fn.blocks)
    (hcut : e.Cut (e.Bound entry) s k stop) (hend : b.end_ = nth s (k + stop.words)) :
    b.Has a ↔ ∃ i < k + stop.words, a = nth s i := by
  have hstart := (h.words hb).1
  have hnat (j : ℕ) (hj : j ≤ k + stop.words) : (nth s j).toNat = s.toNat + 4 * j :=
    hcut.toNat_nth htop (h.target hb) hj
  unfold Block.Has
  rw [hstart, hend, BitVec.le_def, BitVec.lt_def, hnat _ le_rfl]
  constructor
  · rintro ⟨⟨i, rfl⟩, hle, hlt⟩
    -- `i` may go round the address space
    have hval : (nth s i).toNat = (s.toNat + 4 * i % 2 ^ 32) % 2 ^ 32 := by
      rw [nth, BitVec.toNat_add, BitVec.toNat_ofNat]
    have hs := s.isLt
    obtain ⟨m, hm, hval⟩ : ∃ m < k + stop.words, (nth s i).toNat = s.toNat + 4 * m :=
      ⟨((nth s i).toNat - s.toNat) / 4, by omega, by omega⟩
    refine ⟨m, hm, BitVec.eq_of_toNat_eq ?_⟩
    rw [hval, hnat m hm.le]
  · rintro ⟨i, hi, rfl⟩
    rw [hnat i hi.le]
    exact ⟨⟨i, rfl⟩, by omega, by omega⟩

/-- Two blocks share at most the word where one of them begins. -/
theorem Built.shared (h : Built e entry p fn) (htop : e.BelowTop entry) (hb : (s, b) ∈ fn.blocks)
    (hb' : (s', b') ∈ fn.blocks) (hne : s ≠ s') (ha : b.Has a) (ha' : b'.Has a) :
    (a = s ∨ a = s') ∧ e.EnteredSlot entry a := by
  obtain ⟨-, k, stop, hcut, hend⟩ := h.words hb
  obtain ⟨-, k', stop', hcut', hend'⟩ := h.words hb'
  obtain ⟨i, hi, rfl⟩ := (h.has_iff htop hb hcut hend).mp ha
  obtain ⟨j, hj, heq⟩ := (h.has_iff htop hb' hcut' hend').mp ha'
  rcases Nat.le_total j i with hji | hij
  · obtain ⟨rfl, hslot⟩ := hcut.meets (h.target hb) (h.target hb') hne hi hji heq
    exact ⟨.inr (heq.trans (nth_zero s')), hslot⟩
  · obtain ⟨rfl, hslot⟩ := hcut'.meets (h.target hb') (h.target hb) hne.symm hj hij heq.symm
    rw [heq]
    exact ⟨.inl (heq.symm.trans (nth_zero s)), hslot⟩

theorem Built.start_has (h : Built e entry p fn) (htop : e.BelowTop entry)
    (hmap : ∀ pc, e.Reached entry pc → e.read pc ≠ none) (hb : (s, b) ∈ fn.blocks) : b.Has s := by
  obtain ⟨-, k, stop, hcut, hend⟩ := h.words hb
  refine (h.has_iff htop hb hcut hend).mpr ⟨0, ?_, (nth_zero s).symm⟩
  rcases Nat.eq_zero_or_pos k with rfl | hk
  · have hst := hcut.stops
    rw [nth_zero] at hst
    cases stop with
    | unread => exact absurd hst (hmap s (h.target hb).reached)
    | bound => exact absurd rfl (hcut.first rfl)
    | trap | control => simp [Stop.words]
  · omega

/-- A slot ends a block that begins before it. -/
theorem Built.slot_has (h : Built e entry p fn) (hf : e.SlotsFollow entry)
    (htop : e.BelowTop entry) (hmap : ∀ pc, e.Reached entry pc → e.read pc ≠ none) {pc : Word}
    {c : Ctl} (hr : e.Reached entry pc) (hc : e.TermAt pc c) :
    ∃ s b, (s, b) ∈ fn.blocks ∧ b.Has pc ∧ b.Has (pc + 4) ∧ b.end_ = pc + 8 ∧ s ≠ pc + 4 := by
  obtain ⟨s, b, i, hb, rfl, k, stop, hcut, hend, hi⟩ := h.scanned hf hmap hr
  have hik : i = k ∧ stop ≠ .bound := by
    rcases hi with hik | hik
    · exact absurd (hcut.run i hik) hc.not_falls
    · exact hik
  obtain ⟨rfl, hne⟩ := hik
  have hwords : stop.words = 2 := by
    cases stop with
    | unread => exact absurd hcut.stops hc.read
    | bound => exact absurd rfl hne
    | trap => exact absurd hcut.stops hc.not_trap
    | control c => rfl
  have hpast : b.end_ = nth s i + 8 := by
    rw [hend, hwords, nth_succ, nth_succ, BitVec.add_assoc]
    rfl
  have hhas (j : ℕ) (hj : j < i + stop.words) : b.Has (nth s j) :=
    (h.has_iff htop hb hcut hend).mpr ⟨j, hj, rfl⟩
  refine ⟨s, b, hb, hhas i (by omega), ?_, hpast, fun heq => ?_⟩
  · rw [← nth_succ]
    exact hhas (i + 1) (by omega)
  · have hnat := hcut.toNat_nth htop (h.target hb) (by omega : i + 1 ≤ i + stop.words)
    rw [nth_succ, ← heq] at hnat
    omega

theorem Built.block_unique (h : Built e entry p fn) (hb : (s, b) ∈ fn.blocks)
    (hb' : (s, b') ∈ fn.blocks) : b = b' := by
  obtain ⟨k, stop, hcut, rfl⟩ := h.blocks s b hb
  obtain ⟨k', stop', hcut', rfl⟩ := h.blocks s b' hb'
  obtain ⟨rfl, rfl⟩ := hcut.unique hcut'
  rfl

theorem Env.EnteredSlot.executed (h : e.EnteredSlot entry a) : e.Executed entry a :=
  .reached h.1.reached

theorem Built.executed_of_has (h : Built e entry p fn) (htop : e.BelowTop entry)
    (hb : (s, b) ∈ fn.blocks) (ha : b.Has a) : e.Executed entry a := by
  obtain ⟨-, k, stop, hcut, hend⟩ := h.words hb
  obtain ⟨i, hi, rfl⟩ := (h.has_iff htop hb hcut hend).mp ha
  exact hcut.executed (h.target hb) hi

theorem Built.holders_empty (h : Built e entry p fn) (htop : e.BelowTop entry)
    (ha : ¬ e.Executed entry a) : fn.holders a = ∅ := by
  apply Set.eq_empty_of_forall_notMem
  rintro s ⟨b, hb, hhas⟩
  exact ha (h.executed_of_has htop hb hhas)

theorem Built.holders_one (h : Built e entry p fn) (hf : e.SlotsFollow entry)
    (htop : e.BelowTop entry) (hmap : ∀ pc, e.Reached entry pc → e.read pc ≠ none)
    (ha : e.Executed entry a) (hslot : ¬ e.EnteredSlot entry a) : (fn.holders a).ncard = 1 := by
  obtain ⟨s, b, hb, hhas⟩ := h.has hf htop hmap ha
  rw [Set.ncard_eq_one]
  refine ⟨s, Set.eq_singleton_iff_unique_mem.mpr ⟨⟨b, hb, hhas⟩, ?_⟩⟩
  rintro s' ⟨b', hb', hhas'⟩
  by_contra hne
  exact hslot (h.shared htop hb' hb hne hhas' hhas).2

/-- An entered slot ends the block of its transfer, and begins its own. -/
theorem Built.holders_slot (h : Built e entry p fn) (hf : e.SlotsFollow entry)
    (htop : e.BelowTop entry) (hmap : ∀ pc, e.Reached entry pc → e.read pc ≠ none) {pc : Word}
    {c : Ctl} (hr : e.Reached entry pc) (hc : e.TermAt pc c) (ht : e.Target entry (pc + 4)) :
    ∃ s b, (s, b) ∈ fn.blocks ∧ b.Has pc ∧ b.end_ = pc + 8 ∧ s ≠ pc + 4 ∧
      fn.holders (pc + 4) = {s, pc + 4} := by
  obtain ⟨b₀, hb₀⟩ := h.block ht
  obtain ⟨s, b, hb, hpc, hhas, hend, hne⟩ := h.slot_has hf htop hmap hr hc
  refine ⟨s, b, hb, hpc, hend, hne, Set.ext fun s' => ?_⟩
  rw [Set.mem_insert_iff, Set.mem_singleton_iff]
  constructor
  · rintro ⟨b', hb', hhas'⟩
    -- two blocks that begin before the slot do not share it
    by_contra hother
    obtain ⟨hss, hsp⟩ := not_or.mp hother
    rcases (h.shared htop hb' hb hss hhas' hhas).1 with heq | heq
    · exact hsp heq.symm
    · exact hne heq.symm
  · rintro (rfl | rfl)
    · exact ⟨b, hb, hhas⟩
    · exact ⟨b₀, hb₀, h.start_has htop hmap hb₀⟩

theorem Built.holders_two (h : Built e entry p fn) (hf : e.SlotsFollow entry)
    (htop : e.BelowTop entry) (hmap : ∀ pc, e.Reached entry pc → e.read pc ≠ none)
    (ha : e.EnteredSlot entry a) : (fn.holders a).ncard = 2 := by
  obtain ⟨ht, pc, c, hr, hc, rfl⟩ := ha
  obtain ⟨s, b, -, -, -, hne, hholders⟩ := h.holders_slot hf htop hmap hr hc ht
  rw [hholders, Set.ncard_pair hne]

theorem cutBlocks_nInsns (l : List Word) {fn fn' : Func} (h : cutBlocks e n p l fn = some fn')
    (hfn : fn.nInsns = (fn.blocks.map fun x => (x.2.end_ - x.2.start).toNat / 4).sum) :
    fn'.nInsns = (fn'.blocks.map fun x => (x.2.end_ - x.2.start).toNat / 4).sum := by
  induction l generalizing fn with
  | nil =>
    obtain rfl := Option.some.inj h
    exact hfn
  | cons start rest ih =>
    rw [cutBlocks] at h
    split_ifs at h
    swap
    · exact ih h hfn
    · cases hloop : loop (cutBody e (p.leaders ++ p.ends)) n start with
      | none =>
        simp only [hloop] at h
        cases h
      | some x =>
        simp only [hloop] at h
        apply ih h
        simp only [List.map_append, List.sum_append, List.map_singleton, List.sum_singleton, hfn]

theorem nodup_foldl_insert (l : List Word) {t : List Word} (h : t.Nodup) :
    (l.foldl (fun s t => insert t s) t).Nodup := by
  induction l generalizing t with
  | nil => exact h
  | cons x l ih => exact ih (nodup_setInsert h)

namespace Pass1

theorem Leaves.nodup {pc : Word} (h : Leaves e p pc q) (hp : p.leaders.Nodup) :
    q.leaders.Nodup := by
  cases h with
  | unmapped => exact hp
  | trap => exact hp
  | known => exact hp
  | transfer hc hl hq =>
    apply nodup_foldl_insert
    rw [hq.leaders]
    exact hp

theorem walk_nodup (h : walk e n entry = some p) : p.leaders.Nodup := by
  have hrun {p q : Pass1} {pc : Word} (hp : p.leaders.Nodup)
      (hloop : loop (runBody e n) n (p, pc) = some q) : q.leaders.Nodup := by
    obtain ⟨⟨p', pc'⟩, hp', hlast⟩ := loop_inv (fun st : Pass1 × Word => st.1.leaders.Nodup)
      (by
        rintro ⟨p, pc⟩ st' hp hb
        rcases runBody_cases hb with ⟨-, hst⟩ | ⟨q, hst, -⟩
        · obtain rfl := Sum.inl.inj hst
          exact hp
        · cases hst) hp hloop
    rcases runBody_cases hlast with ⟨-, hst⟩ | ⟨q', hst, hq⟩
    · cases hst
    · obtain rfl := Sum.inr.inj hst
      exact hq.nodup hp'
  obtain ⟨q, hq, hlast⟩ := loop_inv (fun p : Pass1 => p.leaders.Nodup)
    (fun p p' hp hb => by
      cases workBody_cases hb with
      | skip => exact hp
      | run _ _ hloop =>
        refine hrun ?_ hloop
        exact hp)
    (List.nodup_singleton entry) h
  obtain ⟨rfl, -⟩ := walk_done hlast
  exact hq

end Pass1

theorem Built.nInsns_eq (h : Built e entry p fn) (htop : e.BelowTop entry)
    (hn : fn.nInsns = (fn.blocks.map fun x => (x.2.end_ - x.2.start).toNat / 4).sum)
    (hnd : p.leaders.Nodup) :
    fn.nInsns = ∑ s ∈ p.leaders.toFinset, {a | s ∈ fn.holders a}.ncard := by
  rw [hn, List.sum_toFinset _ hnd, ← h.starts, List.map_map]
  refine congrArg List.sum (List.map_congr_left fun x hx => ?_)
  obtain ⟨s, b⟩ := x
  obtain ⟨hstart, k, stop, hcut, hend⟩ := h.words hx
  have hnat (j : ℕ) (hj : j ≤ k + stop.words) : (nth s j).toNat = s.toNat + 4 * j :=
    hcut.toNat_nth htop (h.target hx) hj
  -- the words from the start to the end
  have hset : {a | s ∈ fn.holders a} = (Finset.range (k + stop.words)).image (nth s) := by
    ext a
    simp only [Finset.coe_image, Finset.coe_range, Set.mem_image, Set.mem_Iio]
    constructor
    · rintro ⟨b', hb', hhas⟩
      obtain rfl := h.block_unique hx hb'
      obtain ⟨i, hi, rfl⟩ := (h.has_iff htop hx hcut hend).mp hhas
      exact ⟨i, hi, rfl⟩
    · rintro ⟨i, hi, rfl⟩
      exact ⟨b, hx, (h.has_iff htop hx hcut hend).mpr ⟨i, hi, rfl⟩⟩
  have hinj : Set.InjOn (nth s) (Finset.range (k + stop.words)) := by
    intro i hi j hj hij
    have hi' := hnat i (Finset.mem_range.mp hi).le
    have hj' := hnat j (Finset.mem_range.mp hj).le
    rw [hij] at hi'
    omega
  simp only [Function.comp_apply]
  rw [hset, Set.ncard_coe_finset, Finset.card_image_of_injOn hinj, Finset.card_range, hstart, hend]
  have hle : s ≤ nth s (k + stop.words) := by
    rw [BitVec.le_def, hnat _ le_rfl]
    omega
  rw [BitVec.toNat_sub_of_le hle, hnat _ le_rfl]
  omega

/-- The blocks, counted word by word. -/
theorem Built.sum_holders (h : Built e entry p fn) (hf : e.SlotsFollow entry)
    (htop : e.BelowTop entry) (hmap : ∀ pc, e.Reached entry pc → e.read pc ≠ none) :
    ∑ s ∈ p.leaders.toFinset, {a | s ∈ fn.holders a}.ncard =
      {a | e.Executed entry a}.ncard + {a | e.EnteredSlot entry a}.ncard := by
  classical
  let S := p.leaders.toFinset
  let X := (Set.toFinite {a | e.Executed entry a}).toFinset
  have hX (a : Word) : a ∈ X ↔ e.Executed entry a := Set.Finite.mem_toFinset _
  have hS {s a : Word} (hs : s ∈ fn.holders a) : s ∈ S := by
    obtain ⟨b, hb, -⟩ := hs
    rw [List.mem_toFinset, h.done.leaders]
    exact h.target hb
  have habove (s : Word) : {a | s ∈ fn.holders a}.ncard =
      (X.bipartiteAbove (fun s a => s ∈ fn.holders a) s).card := by
    rw [← Set.ncard_coe_finset]
    congr 1
    ext a
    rw [Finset.mem_coe, Finset.mem_bipartiteAbove, hX]
    constructor
    · rintro ⟨b, hb, hhas⟩
      exact ⟨h.executed_of_has htop hb hhas, b, hb, hhas⟩
    · exact And.right
  have hbelow (a : Word) : (S.bipartiteBelow (fun s a => s ∈ fn.holders a) a).card =
      (fn.holders a).ncard := by
    rw [← Set.ncard_coe_finset]
    congr 1
    ext s
    rw [Finset.mem_coe, Finset.mem_bipartiteBelow]
    exact ⟨And.right, fun hs => ⟨hS hs, hs⟩⟩
  have hcount (a : Word) (ha : a ∈ X) :
      (fn.holders a).ncard = 1 + if e.EnteredSlot entry a then 1 else 0 := by
    split_ifs with hslot
    · exact h.holders_two hf htop hmap hslot
    · exact h.holders_one hf htop hmap ((hX a).mp ha) hslot
  have hslots : {a | e.EnteredSlot entry a} = ↑(X.filter fun a => e.EnteredSlot entry a) := by
    ext a
    rw [Finset.mem_coe, Finset.mem_filter, hX]
    exact ⟨fun ha => ⟨EnteredSlot.executed ha, ha⟩, And.right⟩
  calc ∑ s ∈ S, {a | s ∈ fn.holders a}.ncard
      = ∑ s ∈ S, (X.bipartiteAbove (fun s a => s ∈ fn.holders a) s).card :=
        Finset.sum_congr rfl fun s _ => habove s
    _ = ∑ a ∈ X, (S.bipartiteBelow (fun s a => s ∈ fn.holders a) a).card :=
        Finset.sum_card_bipartiteAbove_eq_sum_card_bipartiteBelow _
    _ = ∑ a ∈ X, (1 + if e.EnteredSlot entry a then 1 else 0) :=
        Finset.sum_congr rfl fun a ha => (hbelow a).trans (hcount a ha)
    _ = X.card + (X.filter fun a => e.EnteredSlot entry a).card := by
        rw [Finset.sum_add_distrib, ← Finset.card_eq_sum_ones, Finset.card_filter]
    _ = {a | e.Executed entry a}.ncard + {a | e.EnteredSlot entry a}.ncard := by
        rw [hslots, Set.ncard_coe_finset, Set.ncard_eq_toFinset_card]

theorem build_nInsns (h : build e n entry = some (fn, log)) :
    fn.nInsns = (fn.blocks.map fun x => (x.2.end_ - x.2.start).toNat / 4).sum := by
  obtain ⟨p, hw, -⟩ := build_walk h
  unfold build at h
  simp only [hw] at h
  obtain ⟨fn', hcut, hfn⟩ := Option.map_eq_some_iff.mp h
  obtain ⟨rfl, -⟩ := Prod.mk.inj hfn
  exact cutBlocks_nInsns p.leaders hcut rfl

/-- Each instruction that is executed is in one block, but an entered slot is in two, that of its
transfer, which it ends, and its own; nothing else is in any.  `n_insns` is the number of them,
each slot that is entered counted again. -/
theorem build_partition (h : build e n entry = some (fn, log))
    (hmap : ∀ pc, e.Reached entry pc → e.read pc ≠ none) (hf : e.SlotsFollow entry)
    (htop : e.BelowTop entry) :
    (∀ a, ¬ e.Executed entry a → fn.holders a = ∅) ∧
    (∀ a, e.Executed entry a → ¬ e.EnteredSlot entry a → (fn.holders a).ncard = 1) ∧
    (∀ a, e.EnteredSlot entry a → (fn.holders a).ncard = 2) ∧
    (∀ pc c, e.Reached entry pc → e.TermAt pc c → e.Target entry (pc + 4) →
      ∃ s b, (s, b) ∈ fn.blocks ∧ b.Has pc ∧ b.end_ = pc + 8 ∧ s ≠ pc + 4 ∧
        fn.holders (pc + 4) = {s, pc + 4}) ∧
    fn.nInsns = {a | e.Executed entry a}.ncard + {a | e.EnteredSlot entry a}.ncard := by
  obtain ⟨p, hw, hbuilt⟩ := build_walk h
  refine ⟨fun a ha => hbuilt.holders_empty htop ha,
    fun a ha hslot => hbuilt.holders_one hf htop hmap ha hslot,
    fun a ha => hbuilt.holders_two hf htop hmap ha,
    fun pc c hr hc ht => hbuilt.holders_slot hf htop hmap hr hc ht, ?_⟩
  rw [hbuilt.nInsns_eq htop (build_nInsns h) (Pass1.walk_nodup hw)]
  exact hbuilt.sum_holders hf htop hmap

def ownSlot : Env where
  read a := if a = 0 then some 0x10800000 else if a = 8 then some 0x03e00008
    else if a = 4 ∨ a = 12 then some 0 else none
  hints _ := none

def ownSlotFunc : Func where
  entry := 0
  leaf := true
  blocks := [(0, ⟨0, 8, [4, 8], false, false, false, false, false, false⟩),
    (4, ⟨4, 8, [8], false, false, false, false, false, false⟩),
    (8, ⟨8, 16, [], false, true, false, false, false, false⟩)]
  calls := []
  indirectSites := []
  unresolvedCalls := 0
  nInsns := 5

theorem build_ownSlot : build ownSlot 8 0 = some (ownSlotFunc, ⟨[], 0, 0, 0⟩) := rfl

theorem ownSlot_branch : ownSlot.TermAt 0 ⟨.branch, 4, 0⟩ :=
  ⟨_, rfl, rfl, by decide, by decide⟩

theorem ownSlot_return : ownSlot.TermAt 8 ⟨.jr, 0, 31⟩ := ⟨_, rfl, rfl, by decide, by decide⟩

theorem ownSlot_falls : ownSlot.FallsAt 4 := ⟨0, rfl, rfl⟩

theorem ownSlot_reached (h : ownSlot.Reached 0 a) : a = 0 ∨ a = 4 ∨ a = 8 := by
  induction h with
  | entry => exact .inl rfl
  | fall _ hfalls ih =>
    rcases ih with rfl | rfl | rfl
    · exact absurd hfalls ownSlot_branch.not_falls
    · exact .inr (.inr rfl)
    · exact absurd hfalls ownSlot_return.not_falls
  | succ _ hc hl ht ih =>
    rcases ih with rfl | rfl | rfl
    · obtain rfl := hc.unique ownSlot_branch
      obtain rfl : _ = [4, 8] := hl
      exact .inr (by simpa using ht)
    · exact absurd ownSlot_falls hc.not_falls
    · obtain rfl := hc.unique ownSlot_return
      obtain rfl : _ = [] := hl
      cases ht

/-- The slot is in the block of the branch and in its own. -/
theorem build_partition_ownSlot :
    (ownSlotFunc.holders 4).ncard = 2 ∧ (ownSlotFunc.holders 12).ncard = 1 ∧
      (∃ s b, (s, b) ∈ ownSlotFunc.blocks ∧ b.Has 0 ∧ b.end_ = 8 ∧ s ≠ 4 ∧
        ownSlotFunc.holders 4 = {s, 4}) ∧
      5 = {a | ownSlot.Executed 0 a}.ncard + {a | ownSlot.EnteredSlot 0 a}.ncard := by
  have hmap (pc : Word) (hr : ownSlot.Reached 0 pc) : ownSlot.read pc ≠ none := by
    rcases ownSlot_reached hr with rfl | rfl | rfl <;> decide
  have hf : ownSlot.SlotsFollow 0 := by
    intro pc c hr hc hk ht hfalls
    rcases ownSlot_reached hr with rfl | rfl | rfl
    · obtain rfl := hc.unique ownSlot_branch
      rcases hk with hk | hk <;> cases hk
    · exact absurd ownSlot_falls hc.not_falls
    · -- nothing enters the slot of the return
      exact absurd (ownSlot_reached ht.reached) (by decide)
  have htop : ownSlot.BelowTop 0 := by
    intro a ha
    cases ha with
    | reached hr => rcases ownSlot_reached hr with rfl | rfl | rfl <;> decide
    | slot hr hc => rcases ownSlot_reached hr with rfl | rfl | rfl <;> decide
  have h4 : ownSlot.EnteredSlot 0 4 :=
    ⟨.inr ⟨0, _, [4, 8], .entry, ownSlot_branch, rfl, List.mem_cons_self ..⟩,
      0, _, .entry, ownSlot_branch, rfl⟩
  have h8 : ownSlot.Reached 0 (4 + 4) := .fall h4.1.reached ownSlot_falls
  have h12 : ¬ ownSlot.EnteredSlot 0 12 := by
    rintro ⟨ht, -⟩
    exact absurd (ownSlot_reached ht.reached) (by decide)
  obtain ⟨-, hone, htwo, hslot, hn⟩ := build_partition build_ownSlot hmap hf htop
  exact ⟨htwo 4 h4, hone 12 (.slot h8 ownSlot_return) h12, hslot 0 _ .entry ownSlot_branch h4.1, hn⟩

end RspBt.R4300
