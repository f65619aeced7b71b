import Mathlib.Tactic.Ring
import RspBt.Lib.Spans
import RspBt.Rsp.DmaRows

namespace RspBt.Rsp

open Lib

def rowsToFill (len n : ℕ) : ℕ := (n + len - 1) / len

/-- Bytes of the first `i` rows from `off` on: the rows that fill the bank, then laps of it. -/
def rowsBytes (len off i : ℕ) : ℕ :=
  let first := rowsToFill len (0x1000 - off)
  let lap := rowsToFill len 0x1000
  if i ≤ first then min (i * len) (0x1000 - off)
  else 0x1000 - off + (i - first) / lap * 0x1000 + (i - first) % lap * len

theorem mul_lt_of_lt_rowsToFill {len n i : ℕ} (hlen : 0 < len) (h : i < rowsToFill len n) :
    i * len < n := by
  have h1 : i + 1 ≤ (n + len - 1) / len := h
  have h2 := (Nat.le_div_iff_mul_le hlen).mp h1
  rw [Nat.add_mul] at h2
  omega

theorem le_mul_of_rowsToFill_le {len n i : ℕ} (hlen : 0 < len) (h : rowsToFill len n ≤ i) :
    n ≤ i * len := by
  have h1 : (n + len - 1) / len < i + 1 := Nat.lt_succ_of_le h
  have h2 := (Nat.div_lt_iff_lt_mul hlen).mp h1
  rw [Nat.add_mul] at h2
  omega

/-- In the laps every row begins where the lap is at, and the last one is cut. -/
theorem lapBytes_succ {len m : ℕ} (hlen : 0 < len) :
    let lap := rowsToFill len 0x1000
    (m + 1) / lap * 0x1000 + (m + 1) % lap * len =
      m / lap * 0x1000 + m % lap * len + dmaRowLen len (m % lap * len) := by
  intro lap
  have hlap : 0 < lap := Nat.div_pos (by omega) hlen
  have hr : m % lap < lap := Nat.mod_lt m hlap
  have hm : m % lap + lap * (m / lap) = m := Nat.mod_add_div m lap
  have hlt : m % lap * len < 0x1000 := mul_lt_of_lt_rowsToFill hlen hr
  unfold dmaRowLen
  -- the last row of a lap ends at the end of the bank, whatever is left of it
  by_cases hlast : m % lap + 1 = lap
  · have hnext : (m + 1) / lap = m / lap + 1 ∧ (m + 1) % lap = 0 := by
      rw [Nat.div_mod_unique hlap, Nat.mul_add]
      omega
    have hfull : 0x1000 ≤ lap * len := le_mul_of_rowsToFill_le hlen le_rfl
    rw [← hlast, Nat.add_mul] at hfull
    rw [hnext.1, hnext.2]
    split_ifs <;> omega
  · have hnext : (m + 1) / lap = m / lap ∧ (m + 1) % lap = m % lap + 1 := by
      rw [Nat.div_mod_unique hlap]
      omega
    have hmore : (m % lap + 1) * len < 0x1000 := mul_lt_of_lt_rowsToFill hlen (by omega)
    rw [hnext.1, hnext.2]
    rw [Nat.add_mul] at hmore ⊢
    rw [if_neg (by omega)]
    omega

theorem rowsBytes_first {len off i : ℕ} (h : i ≤ rowsToFill len (0x1000 - off)) :
    rowsBytes len off i = min (i * len) (0x1000 - off) := if_pos h

theorem rowsBytes_laps {len off i : ℕ} (hlen : 0 < len) (h : rowsToFill len (0x1000 - off) ≤ i) :
    rowsBytes len off i = 0x1000 - off +
      ((i - rowsToFill len (0x1000 - off)) / rowsToFill len 0x1000 * 0x1000 +
        (i - rowsToFill len (0x1000 - off)) % rowsToFill len 0x1000 * len) := by
  rcases h.eq_or_lt with rfl | hlt
  · have hfull := le_mul_of_rowsToFill_le hlen (le_refl (rowsToFill len (0x1000 - off)))
    rw [rowsBytes_first le_rfl, Nat.sub_self, Nat.zero_div, Nat.zero_mod]
    omega
  · rw [rowsBytes, if_neg (by omega), Nat.add_assoc]

/-- One more row has the bytes that are left of it in the bank. -/
theorem rowsBytes_succ {len off : ℕ} (hlen : 0 < len) (hoff : off < 0x1000) (i : ℕ) :
    rowsBytes len off (i + 1) =
      rowsBytes len off i + dmaRowLen len ((off + rowsBytes len off i) % 0x1000) := by
  -- the rows up to the first end of the bank, then those of the laps
  by_cases hi : i < rowsToFill len (0x1000 - off)
  · have hlt := mul_lt_of_lt_rowsToFill hlen hi
    rw [rowsBytes_first hi.le, rowsBytes_first hi, Nat.min_eq_left hlt.le, Nat.succ_mul]
    have hmod : (off + i * len) % 0x1000 = off + i * len := Nat.mod_eq_of_lt (by omega)
    rw [hmod, dmaRowLen]
    split_ifs <;> omega
  · have hlap : 0 < rowsToFill len 0x1000 := Nat.div_pos (by omega) hlen
    have hlt := mul_lt_of_lt_rowsToFill hlen
      (Nat.mod_lt (i - rowsToFill len (0x1000 - off)) hlap)
    have hsub : i + 1 - rowsToFill len (0x1000 - off) = i - rowsToFill len (0x1000 - off) + 1 := by
      omega
    rw [rowsBytes_laps hlen (by omega), rowsBytes_laps hlen (by omega), hsub, lapBytes_succ hlen]
    generalize (i - rowsToFill len (0x1000 - off)) / rowsToFill len 0x1000 = q at *
    generalize (i - rowsToFill len (0x1000 - off)) % rowsToFill len 0x1000 * len = r at *
    have hmod : (off + (0x1000 - off + (q * 0x1000 + r))) % 0x1000 = r := by omega
    rw [hmod]
    omega

theorem rowsBytes_zero (len off : ℕ) : rowsBytes len off 0 = 0 := by
  rw [rowsBytes_first (Nat.zero_le _), Nat.zero_mul, Nat.zero_min]

theorem rowsBytes_le {len off : ℕ} (hlen : 0 < len) (hoff : off < 0x1000) (i : ℕ) :
    rowsBytes len off i ≤ i * 0x1000 := by
  induction i with
  | zero => rw [rowsBytes_zero, Nat.zero_mul]
  | succ i ih =>
    have hrow : (off + rowsBytes len off i) % 0x1000 +
        dmaRowLen len ((off + rowsBytes len off i) % 0x1000) ≤ 0x1000 :=
      dmaRowLen_le (Nat.mod_lt _ (by decide))
    rw [rowsBytes_succ hlen hoff]
    omega

theorem rowsBytes_mono {len off : ℕ} (hlen : 0 < len) (hoff : off < 0x1000) :
    Monotone (rowsBytes len off) := by
  apply monotone_nat_of_le_succ
  intro i
  rw [rowsBytes_succ hlen hoff]
  exact Nat.le_add_right _ _

theorem dmaLen_pos (x : Word) : 0 < dmaLen x := by
  have hfield : (x &&& 0xfff : Word).toNat < 2 ^ 12 := by
    rw [Word.toNat_and_fff]
    exact Nat.mod_lt _ (by decide)
  have hor : (x &&& 0xfff ||| 7 : Word).toNat < 2 ^ 12 := by
    rw [BitVec.toNat_or]
    exact Nat.or_lt_two_pow hfield (by decide)
  rw [dmaLen, BitVec.toNat_add, show (1 : Word).toNat = 1 from rfl, Nat.mod_eq_of_lt (by omega)]
  exact Nat.succ_pos _

theorem dmaCount_le (x : Word) : dmaCount x ≤ 256 := by
  have hfield : ((x >>> 12) &&& 0xff : Word).toNat < 256 := by
    rw [Word.toNat_and_ff]
    exact Nat.mod_lt _ (by decide)
  rw [dmaCount, BitVec.toNat_add, show (1 : Word).toNat = 1 from rfl, Nat.mod_eq_of_lt (by omega)]
  exact hfield

theorem dmaSkip_lt (x : Word) : dmaSkip x < 0x1000 := by
  rw [dmaSkip, Word.toNat_and_fff]
  exact Nat.mod_lt _ (by decide)

def bytesBefore (s : Rsp) (x : Word) (i : ℕ) : ℕ := rowsBytes (dmaLen x) s.dmaStart.off i

/-- Where row `i` begins, before its address is reduced to 24 bits. -/
def rowBegin (s : Rsp) (x : Word) (i : ℕ) : ℕ :=
  s.dmaStart.dram + s.bytesBefore x i + i * dmaSkip x

/-- Where row `i` ends, as its copy counts on from an address below 2^24. -/
def rowEnd (s : Rsp) (x : Word) (i : ℕ) : ℕ :=
  s.dmaStart.dram + s.bytesBefore x (i + 1) + i * dmaSkip x

theorem dmaAt_off (s : Rsp) (x : Word) (toRsp : Bool) (i : ℕ) :
    (s.dmaAt x toRsp i).off = (s.dmaStart.off + s.bytesBefore x i) % 0x1000 := by
  have hoff := s.dmaStart_inSpace.off
  induction i with
  | zero =>
    rw [bytesBefore, rowsBytes_zero, Nat.add_zero, Nat.mod_eq_of_lt hoff]
    rfl
  | succ i ih =>
    rw [dmaAt_succ, bytesBefore, rowsBytes_succ (dmaLen_pos x) hoff, ← bytesBefore, ← ih]
    simp only [dmaRow]
    omega

theorem rowEnd_eq (s : Rsp) (x : Word) (toRsp : Bool) (i : ℕ) :
    s.rowEnd x i = s.rowBegin x i + dmaRowLen (dmaLen x) (s.dmaAt x toRsp i).off := by
  rw [rowEnd, rowBegin, dmaAt_off, bytesBefore, bytesBefore,
    rowsBytes_succ (dmaLen_pos x) s.dmaStart_inSpace.off]
  omega

theorem rowBegin_succ (s : Rsp) (x : Word) (i : ℕ) :
    s.rowBegin x (i + 1) = s.rowEnd x i + dmaSkip x := by
  rw [rowBegin, rowEnd, Nat.succ_mul]
  omega

theorem dmaAt_dram (s : Rsp) (x : Word) (toRsp : Bool) (i : ℕ) :
    (s.dmaAt x toRsp i).dram = s.rowBegin x i % 0x1000000 := by
  induction i with
  | zero =>
    rw [rowBegin, bytesBefore, rowsBytes_zero, Nat.zero_mul, Nat.add_zero,
      Nat.mod_eq_of_lt s.dmaStart_inSpace.dram]
    rfl
  | succ i ih =>
    rw [dmaAt_succ, rowBegin_succ, s.rowEnd_eq x toRsp i]
    simp only [dmaRow, ih]
    omega

/-- All the rows take up less than 2^21 bytes. -/
theorem rowEnd_lt (s : Rsp) {x : Word} {i : ℕ} (hi : i < dmaCount x) :
    s.rowEnd x i < s.dmaStart.dram + 0x200000 := by
  have hcount := dmaCount_le x
  have hskip := dmaSkip_lt x
  have hbytes : s.bytesBefore x (i + 1) ≤ (i + 1) * 0x1000 :=
    rowsBytes_le (dmaLen_pos x) s.dmaStart_inSpace.off (i + 1)
  have hstride : i * dmaSkip x ≤ i * 0x1000 := Nat.mul_le_mul_left i hskip.le
  rw [rowEnd]
  omega

theorem rowEnd_le_rowBegin (s : Rsp) (x : Word) {i j : ℕ} (h : i < j) :
    s.rowEnd x i ≤ s.rowBegin x j := by
  have hbytes : s.bytesBefore x (i + 1) ≤ s.bytesBefore x j :=
    rowsBytes_mono (dmaLen_pos x) s.dmaStart_inSpace.off h
  have hstride : i * dmaSkip x ≤ j * dmaSkip x := Nat.mul_le_mul_right _ h.le
  rw [rowEnd, rowBegin]
  omega

/-- Row `i`: near is SP memory, far is RDRAM. -/
def dmaSpan (s : Rsp) (x : Word) (i : ℕ) : Span where
  near := s.dmaBank + (s.dmaStart.off + s.bytesBefore x i) % 0x1000
  far := s.rowBegin x i % 0x1000000
  len := s.rowEnd x i - s.rowBegin x i

def dmaSpans (s : Rsp) (x : Word) : List Span := (List.range (dmaCount x)).map (s.dmaSpan x)

theorem mem_dmaSpans {s : Rsp} {x : Word} {p : Span} :
    p ∈ s.dmaSpans x ↔ ∃ i < dmaCount x, s.dmaSpan x i = p := by
  rw [dmaSpans, List.mem_map]
  simp only [List.mem_range]

theorem dmaSpan_eq (s : Rsp) (x : Word) (toRsp : Bool) (i : ℕ) :
    s.dmaSpan x i = ⟨s.dmaBank + (s.dmaAt x toRsp i).off, (s.dmaAt x toRsp i).dram,
      dmaRowLen (dmaLen x) (s.dmaAt x toRsp i).off⟩ := by
  rw [dmaAt_dram, dmaSpan, s.rowEnd_eq x toRsp, Nat.add_sub_cancel_left, dmaAt_off]

/-- Two rows are apart: the addresses wrap once at most, and then to well below the first. -/
theorem dmaSpan_apart (s : Rsp) {x : Word} {i j : ℕ} (hij : i < j) (hj : j < dmaCount x) :
    (s.dmaSpan x i).Apart (s.dmaSpan x j) := by
  have hnext := s.rowEnd_le_rowBegin x hij
  have hend := s.rowEnd_lt hj
  have hi := s.rowEnd_eq x true i
  have hj := s.rowEnd_eq x true j
  -- a row that has wrapped is below `dmaStart.dram`, and no other row begins there
  have hstart : s.dmaStart.dram ≤ s.rowBegin x i := by
    rw [rowBegin]
    omega
  have hdram := s.dmaStart_inSpace.dram
  simp only [Span.Apart, dmaSpan]
  omega

theorem dmaSpans_apart (s : Rsp) (x : Word) : (s.dmaSpans x).Pairwise Span.Apart := by
  rw [dmaSpans, List.pairwise_map]
  refine List.pairwise_lt_range.imp_of_mem ?_
  intro i j _ hj hij
  exact s.dmaSpan_apart hij (List.mem_range.mp hj)

theorem dmaAt_false (s : Rsp) (x : Word) (i : ℕ) :
    (s.dmaAt x false i).s =
      { s with rdram := copyOut s.mem ((List.range i).map (s.dmaSpan x)) s.rdram } := by
  induction i with
  | zero => rfl
  | succ i ih =>
    rw [dmaAt_succ, List.range_succ, List.map_append, List.map_singleton, copyOut_concat,
      s.dmaSpan_eq x false]
    simp only [dmaRow, ih]
    rfl

theorem dmaAt_true_mem (s : Rsp) (x : Word) (i : ℕ) :
    (s.dmaAt x true i).s.mem = copyIn s.rdram ((List.range i).map (s.dmaSpan x)) s.mem ∧
      (s.dmaAt x true i).s.rdram = s.rdram := by
  induction i with
  | zero => exact ⟨rfl, rfl⟩
  | succ i ih =>
    rw [dmaAt_succ, List.range_succ, List.map_append, List.map_singleton, copyIn_concat,
      s.dmaSpan_eq x true]
    simp only [dmaRow]
    split_ifs <;> exact ⟨by rw [ih.1, ih.2], ih.2⟩

theorem dma_false (s : Rsp) (x : Word) :
    (s.dma x false).mem = s.mem ∧ (s.dma x false).rdram = copyOut s.mem (s.dmaSpans x) s.rdram := by
  have h : (s.dmaRows x false).s = { s with rdram := copyOut s.mem (s.dmaSpans x) s.rdram } :=
    s.dmaAt_false x (dmaCount x)
  constructor
  · change (s.dmaRows x false).s.mem = s.mem
    rw [h]
  · change (s.dmaRows x false).s.rdram = copyOut s.mem (s.dmaSpans x) s.rdram
    rw [h]

theorem dma_true (s : Rsp) (x : Word) :
    (s.dma x true).mem = copyIn s.rdram (s.dmaSpans x) s.mem ∧ (s.dma x true).rdram = s.rdram :=
  s.dmaAt_true_mem x (dmaCount x)

theorem dmaSpans_congr {s t : Rsp} (hsp : t.spMemAddr = s.spMemAddr)
    (hdram : t.spDramAddr = s.spDramAddr) (x : Word) : t.dmaSpans x = s.dmaSpans x := by
  have hspan : t.dmaSpan x = s.dmaSpan x := by
    funext i
    simp only [dmaSpan, rowEnd, rowBegin, bytesBefore, dmaStart, dmaBank, hsp, hdram]
  rw [dmaSpans, dmaSpans, hspan]

/-- Out, and with the address registers put back in again: SP memory is what it was. -/
theorem dma_out_in (s : Rsp) (x : Word) :
    (((s.dma x false).setAddrs s.spMemAddr s.spDramAddr).dma x true).mem = s.mem := by
  have hout := s.dma_false x
  have hspans : ((s.dma x false).setAddrs s.spMemAddr s.spDramAddr).dmaSpans x = s.dmaSpans x :=
    dmaSpans_congr rfl rfl x
  rw [(dma_true _ x).1, hspans]
  change copyIn (s.dma x false).rdram (s.dmaSpans x) (s.dma x false).mem = s.mem
  rw [hout.1, hout.2]
  exact copyIn_copyOut (s.dmaSpans_apart x)

/-- At most a bank of bytes follows from the start of row `i` on: no later row lands on it. -/
def InLastLap (s : Rsp) (x : Word) (i : ℕ) : Prop :=
  s.bytesBefore x (dmaCount x) ≤ s.bytesBefore x i + 0x1000

theorem dmaSpan_near_le (s : Rsp) (x : Word) (i : ℕ) :
    (s.dmaSpan x i).near + (s.dmaSpan x i).len ≤ s.dmaBank + 0x1000 := by
  have hrow : (s.dmaAt x true i).off + dmaRowLen (dmaLen x) (s.dmaAt x true i).off ≤ 0x1000 := by
    apply dmaRowLen_le
    rw [dmaAt_off]
    exact Nat.mod_lt _ (by decide)
  rw [s.dmaSpan_eq x true]
  simp only
  omega

theorem dmaSpan_near_apart {s : Rsp} {x : Word} {i j k : ℕ} (h : s.InLastLap x i) (hij : i < j)
    (hj : j < dmaCount x) (hk : k < (s.dmaSpan x i).len) :
    (s.dmaSpan x i).near + k < (s.dmaSpan x j).near ∨
      (s.dmaSpan x j).near + (s.dmaSpan x j).len ≤ (s.dmaSpan x i).near + k := by
  have hnear_i := s.dmaSpan_near_le x i
  have hnear_j := s.dmaSpan_near_le x j
  have hmono : Monotone (s.bytesBefore x) :=
    rowsBytes_mono (dmaLen_pos x) s.dmaStart_inSpace.off
  -- row `j` begins after row `i` ends, and ends within a bank of where row `i` begins
  have hafter : s.bytesBefore x (i + 1) ≤ s.bytesBefore x j := hmono hij
  have hbefore : s.bytesBefore x (j + 1) ≤ s.bytesBefore x (dmaCount x) := hmono hj
  unfold InLastLap at h
  simp only [dmaSpan, rowEnd, rowBegin] at hnear_i hnear_j hk ⊢
  omega

theorem dma_true_mem_apply {s : Rsp} {x : Word} {i k : ℕ} (h : s.InLastLap x i)
    (hi : i < dmaCount x) (hk : k < (s.dmaSpan x i).len) :
    (s.dma x true).mem ((s.dmaSpan x i).near + k) = s.rdram ((s.dmaSpan x i).far + k) := by
  obtain ⟨l₁, l₂, hl⟩ := List.append_of_mem (List.mem_range.mpr hi)
  have hlater : ∀ j ∈ l₂, i < j := by
    have hsorted : (l₁ ++ i :: l₂).Pairwise (· < ·) := hl ▸ List.pairwise_lt_range
    exact (List.pairwise_cons.mp (List.pairwise_append.mp hsorted).2.1).1
  rw [(s.dma_true x).1, dmaSpans, hl, List.map_append, List.map_cons]
  refine copyIn_of_last hk fun q hq => ?_
  obtain ⟨j, hj, rfl⟩ := List.mem_map.mp hq
  have hcount : j ∈ List.range (dmaCount x) := by
    rw [hl]
    exact List.mem_append_right _ (List.mem_cons_of_mem _ hj)
  exact dmaSpan_near_apart h (hlater j hj) (List.mem_range.mp hcount) hk

theorem dma_false_rdram_apply {s : Rsp} {x : Word} {i k : ℕ} (hi : i < dmaCount x)
    (hk : k < (s.dmaSpan x i).len) :
    (s.dma x false).rdram ((s.dmaSpan x i).far + k) = s.mem ((s.dmaSpan x i).near + k) := by
  rw [(s.dma_false x).2]
  exact copyOut_of_mem (s.dmaSpans_apart x) (mem_dmaSpans.mpr ⟨i, hi, rfl⟩) hk

def DmaTouches (s : Rsp) (x : Word) (toRsp : Bool) (a : ℕ) : Prop :=
  ∃ i < dmaCount x, (s.dmaAt x toRsp i).dram ≤ a ∧
    a < (s.dmaAt x toRsp i).dram + dmaRowLen (dmaLen x) (s.dmaAt x toRsp i).off

theorem dmaTouches_iff {s : Rsp} {x : Word} {toRsp : Bool} {a : ℕ} :
    s.DmaTouches x toRsp a ↔ ∃ p ∈ s.dmaSpans x, p.Covers a := by
  simp only [mem_dmaSpans, DmaTouches]
  constructor
  · rintro ⟨i, hi, h⟩
    exact ⟨_, ⟨i, hi, s.dmaSpan_eq x toRsp i⟩, h⟩
  · rintro ⟨_, ⟨i, hi, rfl⟩, h⟩
    rw [s.dmaSpan_eq x toRsp i] at h
    exact ⟨i, hi, h⟩

/-- Out writes no other RDRAM byte. -/
theorem dma_rdram_of_not_touches {s : Rsp} {x : Word} {toRsp : Bool} {a : ℕ}
    (h : ¬ s.DmaTouches x toRsp a) : (s.dma x toRsp).rdram a = s.rdram a := by
  cases toRsp with
  | true => rw [(s.dma_true x).2]
  | false =>
    rw [(s.dma_false x).2]
    apply copyOut_of_not_covers
    intro p hp hc
    exact h (dmaTouches_iff.mpr ⟨p, hp, hc⟩)

/-- A transfer stays in the space exactly when no row lies across its end: the address is
reduced between two rows but not within one. -/
theorem dma_in_space_iff (s : Rsp) (x : Word) (toRsp : Bool) :
    (∀ a, s.DmaTouches x toRsp a → a < 0x1000000) ↔
      ∀ i < dmaCount x, s.rowBegin x i < 0x1000000 → s.rowEnd x i ≤ 0x1000000 := by
  simp only [dmaTouches_iff, mem_dmaSpans]
  constructor
  · intro h i hi hbegin
    -- the row across the end holds the byte at 2^24
    by_contra hend
    have hcover : (s.dmaSpan x i).Covers 0x1000000 := by
      simp only [Span.Covers, dmaSpan]
      omega
    exact absurd (h _ ⟨_, ⟨i, hi, rfl⟩, hcover⟩) (by omega)
  · rintro h a ⟨_, ⟨i, hi, rfl⟩, hlo, hhi⟩
    have hrow := h i hi
    have hend := s.rowEnd_lt hi
    have hdram := s.dmaStart_inSpace.dram
    have hlen := s.rowEnd_eq x toRsp i
    simp only [dmaSpan] at hhi
    omega

/-- Sixteen bytes from 0xfffff8 on: the last eight are beyond the space. -/
theorem not_dma_in_space :
    ¬ ∀ a, ({ init with spDramAddr := 0xfffff8 } : Rsp).DmaTouches 15 true a → a < 0x1000000 := by
  intro h
  have htouch : ({ init with spDramAddr := 0xfffff8 } : Rsp).DmaTouches 15 true 0x1000007 :=
    ⟨0, by decide, by decide, by decide⟩
  exact absurd (h _ htouch) (by decide)

end RspBt.Rsp
