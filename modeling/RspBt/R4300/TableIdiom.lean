import RspBt.R4300.TableScan

namespace RspBt.R4300

open Lib

/-- The register that an instruction of MIPS III writes, transfers apart. -/
def dest (insn : Word) : Option (BitVec 5) :=
  match insn.op with
  | 0x00 =>
    match insn.fn with
    | 0x08 | 0x0c | 0x0d | 0x0f | 0x11 | 0x13 | 0x18 | 0x19 | 0x1a | 0x1b | 0x1c | 0x1d | 0x1e
    | 0x1f | 0x30 | 0x31 | 0x32 | 0x33 | 0x34 | 0x36 => none
    | _ => some insn.rd
  | 0x08 | 0x09 | 0x0a | 0x0b | 0x0c | 0x0d | 0x0e | 0x0f | 0x18 | 0x19 | 0x1a | 0x1b => some insn.rt
  | 0x10 | 0x11 | 0x12 => if insn.rs ∈ [0x00, 0x01, 0x02] then some insn.rt else none
  | 0x20 | 0x21 | 0x22 | 0x23 | 0x24 | 0x25 | 0x26 | 0x27 => some insn.rt
  | 0x30 | 0x34 | 0x37 | 0x38 | 0x3c => some insn.rt
  | _ => none

structure Layout where
  lw : ℕ
  addu : ℕ
  lui : ℕ
  sll : ℕ
  beq : ℕ
  sltiu : ℕ

namespace Layout

variable (d : Layout)

structure Ordered : Prop where
  lw : 0 < d.lw
  addu : d.lw < d.addu
  lui : d.addu < d.lui
  sll : d.lui < d.sll
  beq : d.sll < d.beq
  sltiu : d.beq < d.sltiu
  nearLui : d.lui ≤ 16
  nearSltiu : d.sltiu ≤ d.lui + 16

end Layout

namespace Env

/-- `sltiu at, idx, N; beq at, $0; sll t, idx, 2; lui at, hi; addu at, at, t; lw t, lo(at); jr t`,
with words between that are no transfers and write none of the registers. -/
structure Idiom (e : Env) (jrPc : Word) (at' t idx : BitVec 5) (d : Layout)
    (lw lui sltiu : Word) : Prop where
  ordered : d.Ordered
  jr : ∃ w, e.read jrPc = some w ∧ w.op = 0x00 ∧ w.fn = 0x08 ∧ w.rs = t
  lw : e.behind jrPc d.lw = some lw ∧ lw.op = 0x23 ∧ lw.rt = t ∧ lw.rs = at'
  addu : ∃ w, e.behind jrPc d.addu = some w ∧ w.op = 0x00 ∧ w.fn = 0x21 ∧ w.rd = at' ∧
    w.rs = at' ∧ w.rt = t
  lui : e.behind jrPc d.lui = some lui ∧ lui.op = 0x0f ∧ lui.rt = at'
  sll : ∃ w, e.behind jrPc d.sll = some w ∧ w.op = 0x00 ∧ w.fn = 0x00 ∧ w.rd = t ∧ w.rt = idx ∧
    w.sa = 2
  beq : ∃ w, e.behind jrPc d.beq = some w ∧ w.op = 0x04 ∧ w.rs = at' ∧ w.rt = 0
  sltiu : e.behind jrPc d.sltiu = some sltiu ∧ sltiu.op = 0x0b ∧ sltiu.rs = idx ∧ sltiu.rt = at'
  between : ∀ k, 0 < k → k < d.sltiu → k ∉ [d.lw, d.addu, d.lui, d.sll, d.beq] →
    ∃ w, e.behind jrPc k = some w ∧ (decode (back jrPc k) w).k = .fall ∧
      dest w ∉ [some idx, some t, some at']
  regs : at' ≠ t ∧ at' ≠ 0 ∧ t ≠ 0

end Env

theorem IsLw.dest {r : BitVec 5} {w : Word} (h : IsLw r w) : R4300.dest w = some r := by
  rw [R4300.dest, h.1]
  exact congrArg some h.2

theorem IsLui.dest {r : BitVec 5} {w : Word} (h : IsLui r w) : R4300.dest w = some r := by
  rw [R4300.dest, h.1]
  exact congrArg some h.2

namespace Env

variable {e : Env} {jrPc : Word} {at' t idx : BitVec 5} {d : Layout} {lw lui sltiu : Word} {k : ℕ}

theorem Idiom.read (h : e.Idiom jrPc at' t idx d lw lui sltiu) (h0 : 0 < k) (hk : k ≤ d.sltiu) :
    ∃ w, e.behind jrPc k = some w := by
  rcases Nat.lt_or_eq_of_le hk with hlt | rfl
  · by_cases hmem : k ∈ [d.lw, d.addu, d.lui, d.sll, d.beq]
    · simp only [List.mem_cons, List.not_mem_nil, or_false] at hmem
      rcases hmem with rfl | rfl | rfl | rfl | rfl
      · exact ⟨_, h.lw.1⟩
      · obtain ⟨w, hw, -⟩ := h.addu
        exact ⟨w, hw⟩
      · exact ⟨_, h.lui.1⟩
      · obtain ⟨w, hw, -⟩ := h.sll
        exact ⟨w, hw⟩
      · obtain ⟨w, hw, -⟩ := h.beq
        exact ⟨w, hw⟩
    · obtain ⟨w, hw, -⟩ := h.between k h0 hlt hmem
      exact ⟨w, hw⟩
  · exact ⟨_, h.sltiu.1⟩

/-- From the `lui` on only the `addu` and the `lw` write one of the registers. -/
theorem Idiom.other (h : e.Idiom jrPc at' t idx d lw lui sltiu) (h0 : 0 < k) (hk : k < d.lui)
    (hlw : k ≠ d.lw) (haddu : k ≠ d.addu) :
    ∃ w, e.behind jrPc k = some w ∧ dest w ≠ some t ∧ dest w ≠ some at' := by
  obtain ⟨-, -, -, hsll, hbeq, hsltiu, -, -⟩ := h.ordered
  have hmem : k ∉ [d.lw, d.addu, d.lui, d.sll, d.beq] := by
    simp only [List.mem_cons, List.not_mem_nil, or_false]
    omega
  obtain ⟨w, hw, -, hdest⟩ := h.between k h0 (by omega) hmem
  simp only [List.mem_cons, List.not_mem_nil, or_false, not_or] at hdest
  exact ⟨w, hw, hdest.2.1, hdest.2.2⟩

/-- The scan finds the `lw` and the `lui` of the idiom, whatever is between. -/
theorem Idiom.pair (h : e.Idiom jrPc at' t idx d lw lui sltiu) :
    e.Pair jrPc t d.lw (d.lui - d.lw) lw lui := by
  obtain ⟨hpos, haddu, hlui, -⟩ := h.ordered
  obtain ⟨hlw, hlwop, hlwrt, hlwrs⟩ := h.lw
  refine ⟨⟨hpos, fun i hi hlt => ?_, hlw, hlwop, hlwrt⟩, ⟨by omega, fun i hi hlt => ?_, ?_, ?_⟩⟩
  · obtain ⟨w, hw, hdest, -⟩ := h.other hi (by omega) (by omega) (by omega)
    exact ⟨w, hw, fun hload => hdest hload.dest⟩
  · rw [behind_back, hlwrs]
    by_cases heq : d.lw + i = d.addu
    · obtain ⟨w, hw, hop, -⟩ := h.addu
      rw [heq]
      refine ⟨w, hw, fun hupper => ?_⟩
      have hop' := hupper.1
      rw [hop] at hop'
      exact absurd hop' (by decide)
    · obtain ⟨w, hw, -, hdest⟩ := h.other (show 0 < d.lw + i by omega) (by omega) (by omega) heq
      exact ⟨w, hw, fun hupper => hdest hupper.dest⟩
  · rw [behind_back, Nat.add_sub_cancel' (by omega)]
    exact h.lui.1
  · rw [hlwrs]
    exact h.lui.2

def idiomBase (lw lui : Word) : Word := lui.uimm <<< 16 + lw.simm

/-- The nearest of the words the scan takes for the bound, counted from the `lui`, is `k` words
before the jr. -/
structure TakenBound (e : Env) (jrPc : Word) (d : Layout) (k : ℕ) (w : Word) : Prop where
  after : d.lui < k
  last : k ≤ d.sltiu
  word : e.behind jrPc k = some w
  op : w.op = 0x0b
  nearest : ∀ j v, d.lui < j → j < k → e.behind jrPc j = some v → v.op ≠ 0x0b

theorem TakenBound.nearest_sltiu (h : e.Idiom jrPc at' t idx d lw lui sltiu) {w : Word}
    (hk : e.TakenBound jrPc d k w) :
    Nearest (e.behind (back jrPc d.lui)) IsSltiu (k - d.lui) w := by
  have hafter := hk.after
  have hlast := hk.last
  refine ⟨by omega, fun i hi hlt => ?_, ?_, hk.op⟩
  · obtain ⟨v, hv⟩ := h.read (show 0 < d.lui + i by omega) (by omega)
    rw [behind_back]
    exact ⟨v, hv, hk.nearest _ v (by omega) (by omega) hv⟩
  · rw [behind_back, Nat.add_sub_cancel' hafter.le]
    exact hk.word

/-- There is one: the idiom's own, if no other. -/
theorem Idiom.exists_takenBound (h : e.Idiom jrPc at' t idx d lw lui sltiu) :
    ∃ k w, e.TakenBound jrPc d k w := by
  obtain ⟨-, -, -, hsll, hbeq, hsltiu, -, -⟩ := h.ordered
  have hown : e.behind (back jrPc d.lui) (d.sltiu - d.lui) = some sltiu := by
    rw [behind_back, Nat.add_sub_cancel' (by omega)]
    exact h.sltiu.1
  obtain ⟨i, w, hi, hw⟩ := exists_nearest (show 0 < d.sltiu - d.lui by omega) hown
    (show IsSltiu sltiu from h.sltiu.2.1) (fun i h0 hlt => by
      rw [behind_back]
      exact h.read (by omega) (by omega))
  refine ⟨d.lui + i, w, ?_, by omega, ?_, hw.kind, fun j v hj hlt hv hop => ?_⟩
  · have := hw.pos
    omega
  · rw [← behind_back]
    exact hw.get
  · obtain ⟨m, rfl⟩ : ∃ m, j = d.lui + m := ⟨j - d.lui, by omega⟩
    obtain ⟨v', hv', hnot⟩ := hw.clear m (by omega) (by omega)
    rw [behind_back] at hv'
    obtain rfl := Option.some.inj (hv.symm.trans hv')
    exact hnot hop

/-- What stands there is a table of as many entries as the bound says that is taken. -/
theorem Idiom.table (h : e.Idiom jrPc at' t idx d lw lui sltiu) (hwrap : 128 ≤ jrPc.toNat)
    (htop : jrPc.toNat + 60 < 2 ^ 32) {w : Word} (hk : e.TakenBound jrPc d k w)
    (h0 : w.uimm ≠ 0) (h256 : ¬ 256 < w.uimm) : e.Table jrPc (idiomBase lw lui) w.uimm := by
  obtain ⟨hpos, haddu, hlui, hsll, hbeq, hsltiu, hnear, hnear'⟩ := h.ordered
  obtain ⟨jr, hjr, -, -, rfl⟩ := h.jr
  have hsum : d.lw + (d.lui - d.lw) = d.lui := Nat.add_sub_cancel' (by omega)
  have hlast := hk.last
  have hback : (back jrPc d.lui).toNat + 60 < 2 ^ 32 := by
    rw [back, BitVec.toNat_sub, BitVec.toNat_ofNat]
    omega
  refine ⟨jr, _, _, k - d.lui, lw, lui, w, hjr, h.pair, ?_, ?_, ?_, ?_, rfl, h0, h256⟩
  · rw [hsum]
    exact hk.nearest_sltiu h
  · exact (reaches_seventeen htop).mono (by omega)
  · rw [hsum]
    exact (reaches_seventeen hback).mono (by omega)
  · exact BitVec.add_comm _ _

/-- What is read where the bound that is taken is the idiom's, and conversely. -/
theorem Idiom.table_bound (h : e.Idiom jrPc at' t idx d lw lui sltiu) {base count : Word}
    (htable : e.Table jrPc base count) :
    jrPc.toNat + 60 < 2 ^ 32 ∧ ∀ k w, e.TakenBound jrPc d k w → w.uimm = count := by
  obtain ⟨hpos, haddu, hlui, -⟩ := h.ordered
  obtain ⟨jr, hjr, -, -, rfl⟩ := h.jr
  obtain ⟨jr', i, j, m, lw', lui', b, hjr', hp, hb, hr, -, -, rfl, -⟩ := htable
  obtain rfl := Option.some.inj (hjr.symm.trans hjr')
  obtain ⟨rfl, rfl, rfl, rfl⟩ := hp.unique h.pair
  refine ⟨?_, fun k w hk => ?_⟩
  · have hone := hr 1 Nat.one_pos (by omega)
    rw [BitVec.le_def, toNat_ahead] at hone
    have := jrPc.isLt
    omega
  · rw [Nat.add_sub_cancel' (by omega)] at hb
    rw [((hk.nearest_sltiu h).unique hb).2]

end Env

/-- `jump_table` succeeds, with the `N` words of the table at `base`. -/
def Env.ReadsTable (e : Env) (jrPc base : Word) (N : ℕ) : Prop :=
  ∃ n l, e.jumpTable n jrPc = some (true, l) ∧ l.map some = (List.range N).map (e.entry base)

/-- The idiom is read, with whatever is put between, when the jr is not among the last words there
are and the nearest `sltiu` before the `lui` has the bound of the idiom's. -/
theorem readsTable_iff {e : Env} {jrPc : Word} {at' t idx : BitVec 5} {d : Layout}
    {lw lui sltiu : Word} (h : e.Idiom jrPc at' t idx d lw lui sltiu) (hwrap : 128 ≤ jrPc.toNat)
    (hN : 1 ≤ sltiu.uimm.toNat) (hN' : sltiu.uimm.toNat ≤ 256)
    (hread : ∀ i < sltiu.uimm.toNat, e.entry (Env.idiomBase lw lui) i ≠ none) :
    e.ReadsTable jrPc (Env.idiomBase lw lui) sltiu.uimm.toNat ↔
      jrPc.toNat + 60 < 2 ^ 32 ∧ ∀ k w, e.TakenBound jrPc d k w → w.uimm = sltiu.uimm := by
  constructor
  · rintro ⟨n, l, hl, hwords⟩
    obtain ⟨base, count, htable, hx⟩ := Env.jumpTable_spec hl (by simp)
    obtain ⟨htop, hbound⟩ := h.table_bound htable
    have hok : (e.tableEntries base 0 count.toNat).1 = true := by rw [← hx]
    have hlen := congrArg List.length (Env.tableEntries_words hok)
    rw [← hx, hwords, List.length_map, List.length_map, List.length_range, List.length_range']
      at hlen
    refine ⟨htop, fun k w hk => ?_⟩
    rw [hbound k w hk]
    exact (BitVec.eq_of_toNat_eq hlen).symm
  · rintro ⟨htop, hbound⟩
    obtain ⟨k, w, hk⟩ := h.exists_takenBound
    have huimm := hbound k w hk
    have h0 : w.uimm ≠ 0 := by
      rw [huimm]
      intro h0
      rw [h0] at hN
      exact absurd hN (by decide)
    have h256 : ¬ 256 < w.uimm := by
      rw [huimm, BitVec.lt_def]
      exact Nat.not_lt.mpr hN'
    obtain ⟨n, hn⟩ := (h.table hwrap htop hk h0 h256).read
    rw [huimm] at hn
    have hok : (e.tableEntries (Env.idiomBase lw lui) 0 sltiu.uimm.toNat).1 = true :=
      Env.tableEntries_all_iff.mpr hread
    refine ⟨n, (e.tableEntries (Env.idiomBase lw lui) 0 sltiu.uimm.toNat).2, ?_, ?_⟩
    · rw [hn, ← hok]
    · rw [Env.tableEntries_words hok, List.range_eq_range']

/-- A table of two entries at 0x200, and a word between the `sll` and the `lui`. -/
def idiomCode (between : Word) : Env where
  read a := some <|
    match a with
    | 0xe4 => 0x2ca10002
    | 0xe8 => 0x10200010
    | 0xec => 0x00054080
    | 0xf0 => between
    | 0xf4 => 0x3c010000
    | 0xf8 => 0x00280821
    | 0xfc => 0x8c280200
    | 0x100 => 0x01000008
    | 0x200 => 0x110
    | 0x204 => 0x118
    | _ => 0
  hints _ := none

def idiomLayout : Layout := ⟨1, 2, 3, 5, 6, 7⟩

theorem idiomCode_idiom {between : Word} (hfall : (decode 0xf0 between).k = .fall)
    (hdest : dest between ∉ [some 5, some 8, some 1]) :
    (idiomCode between).Idiom 0x100 1 8 5 idiomLayout 0x8c280200 0x3c010000 0x2ca10002 where
  ordered := by constructor <;> decide
  jr := ⟨0x01000008, rfl, by decide⟩
  lw := ⟨rfl, by decide⟩
  addu := ⟨0x00280821, rfl, by decide⟩
  lui := ⟨rfl, by decide⟩
  sll := ⟨0x00054080, rfl, by decide⟩
  beq := ⟨0x10200010, rfl, by decide⟩
  sltiu := ⟨rfl, by decide⟩
  between := by
    intro k h0 hk hmem
    obtain rfl : k = 4 := by
      simp only [idiomLayout, List.mem_cons, List.not_mem_nil, or_false] at hk hmem
      omega
    exact ⟨_, rfl, hfall, hdest⟩
  regs := by decide

/-- With a `nop` between. -/
theorem readsTable_iff_nop :
    (idiomCode 0).ReadsTable 0x100 (Env.idiomBase 0x8c280200 0x3c010000) 2 ↔
      (0x100 : Word).toNat + 60 < 2 ^ 32 ∧
        ∀ k w, (idiomCode 0).TakenBound 0x100 idiomLayout k w → w.uimm = (0x2ca10002 : Word).uimm :=
  readsTable_iff (idiomCode_idiom (by decide) (by decide)) (by decide) (by decide) (by decide)
    fun _ _ => Option.some_ne_none _

/-- `sltiu $2, $4, 5` between writes none of the registers, and five words are read of two. -/
theorem not_readsTable :
    (idiomCode 0x2c820005).Idiom 0x100 1 8 5 idiomLayout 0x8c280200 0x3c010000 0x2ca10002 ∧
      (idiomCode 0x2c820005).jumpTable 20 0x100 = some (true, [0x110, 0x118, 0, 0, 0]) ∧
      ¬ (idiomCode 0x2c820005).ReadsTable 0x100 (Env.idiomBase 0x8c280200 0x3c010000) 2 := by
  have hfive : (idiomCode 0x2c820005).jumpTable 20 0x100 =
      some (true, [0x110, 0x118, 0, 0, 0]) := rfl
  refine ⟨idiomCode_idiom (by decide) (by decide), hfive, ?_⟩
  rintro ⟨n, l, hl, hwords⟩
  obtain ⟨-, rfl⟩ := Prod.mk.inj (Env.jumpTable_unique hl hfive)
  exact absurd (congrArg List.length hwords) (by decide)

end RspBt.R4300
