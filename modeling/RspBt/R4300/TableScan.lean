import RspBt.Lib.Nearest
import RspBt.R4300.CfgSpec

namespace RspBt.R4300

open Lib

def back (a : Word) (k : ℕ) : Word := a - BitVec.ofNat 32 (4 * k)

theorem back_zero (a : Word) : back a 0 = a := BitVec.sub_zero a

theorem back_succ (a : Word) (k : ℕ) : back a (k + 1) = back a k - 4 := by
  unfold back
  rw [Nat.mul_succ, BitVec.ofNat_add]
  bv_omega

theorem back_back (a : Word) (i j : ℕ) : back (back a i) j = back a (i + j) := by
  unfold back
  rw [Nat.mul_add, BitVec.ofNat_add]
  bv_omega

theorem back_one (a : Word) : back a 1 = a - 4 := by
  rw [back_succ, back_zero]

def Reaches (a : Word) (k : ℕ) : Prop := ∀ i, 0 < i → i < k → a ≤ back a i + 64

theorem Reaches.succ {a : Word} {k : ℕ} (h : Reaches a k) (hk : a ≤ back a k + 64) :
    Reaches a (k + 1) := by
  intro i hi hlt
  rcases Nat.lt_succ_iff_lt_or_eq.mp hlt with hlt | rfl
  · exact h i hi hlt
  · exact hk

theorem Reaches.mono {a : Word} {i k : ℕ} (h : Reaches a k) (hik : i ≤ k) : Reaches a i :=
  fun j hj hlt => h j hj (Nat.lt_of_lt_of_le hlt hik)

theorem toNat_ahead (a : Word) (k : ℕ) :
    (back a k + 64).toNat = (2 ^ 32 - 4 * k % 2 ^ 32 + a.toNat + 64) % 2 ^ 32 := by
  rw [back, BitVec.toNat_add, BitVec.toNat_sub, BitVec.toNat_ofNat]
  change (_ % 2 ^ 32 + 64) % 2 ^ 32 = _
  omega

/-- The sixteen words before `a` are within reach where `a` is not among the last there are. -/
theorem reaches_seventeen {a : Word} (h : a.toNat + 60 < 2 ^ 32) : Reaches a 17 := by
  intro i hi hlt
  rw [BitVec.le_def, toNat_ahead]
  omega

def IsLw (r : BitVec 5) (w : Word) : Prop := w.op = 0x23 ∧ w.rt = r

def IsLui (r : BitVec 5) (w : Word) : Prop := w.op = 0x0f ∧ w.rt = r

/-- A bound, of whatever register. -/
def IsSltiu (w : Word) : Prop := w.op = 0x0b

namespace Env

variable {e : Env} {jrPc a base count : Word} {i j k n : ℕ} {r : BitVec 5} {lw lui w : Word}

def behind (e : Env) (a : Word) (k : ℕ) : Option Word := e.read (back a k)

theorem behind_back (e : Env) (a : Word) (i k : ℕ) :
    e.behind (back a i) k = e.behind a (i + k) := by
  rw [behind, back_back, behind]

/-- The nearest `lw` of `r`, `i` words back, and the nearest `lui` of its base, `j` more. -/
structure Pair (e : Env) (jrPc : Word) (r : BitVec 5) (i j : ℕ) (lw lui : Word) : Prop where
  load : Nearest (e.behind jrPc) (IsLw r) i lw
  upper : Nearest (e.behind (back jrPc i)) (IsLui lw.rs) j lui

/-- The table of the jr at `jrPc`, as the nearest `lw`, `lui` and `sltiu` have it. -/
def Table (e : Env) (jrPc base count : Word) : Prop :=
  ∃ jr i j k lw lui sltiu, e.read jrPc = some jr ∧ e.Pair jrPc jr.rs i j lw lui ∧
    Nearest (e.behind (back jrPc (i + j))) IsSltiu k sltiu ∧
    Reaches jrPc (i + j + 1) ∧ Reaches (back jrPc (i + j)) (k + 1) ∧
    base = lw.simm + lui.uimm <<< 16 ∧ count = sltiu.uimm ∧ count ≠ 0 ∧ ¬ 256 < count

theorem Pair.unique (h : e.Pair jrPc r i j lw lui) {i' j' : ℕ} {lw' lui' : Word}
    (h' : e.Pair jrPc r i' j' lw' lui') : i = i' ∧ j = j' ∧ lw = lw' ∧ lui = lui' := by
  obtain ⟨rfl, rfl⟩ := h.load.unique h'.load
  obtain ⟨rfl, rfl⟩ := h.upper.unique h'.upper
  exact ⟨rfl, rfl, rfl, rfl⟩

theorem Table.count_pos (h : e.Table jrPc base count) : 0 < count.toNat := by
  obtain ⟨-, -, -, -, -, -, -, -, -, -, -, -, -, -, h0, -⟩ := h
  exact Nat.pos_of_ne_zero fun hz => h0 (BitVec.eq_of_toNat_eq hz)

theorem boundBody_turn (hgo : a ≤ back a k + 64) (hw : e.behind a k = some w) (hs : ¬ IsSltiu w) :
    e.boundBody a (back a k) = some (.inl (back a (k + 1))) := by
  unfold boundBody
  rw [if_pos hgo]
  simp only [show e.read (back a k) = some w from hw]
  rw [if_neg (show ¬ w.op = 0x0b from hs), back_succ]

theorem boundBody_stop (h : ¬ a ≤ back a k + 64 ∨ e.behind a k = none) :
    e.boundBody a (back a k) = some (.inr 0) := by
  unfold boundBody
  split_ifs with hgo
  · simp only [show e.read (back a k) = none from h.resolve_left (not_not_intro hgo)]
  · rfl

theorem boundBody_found (hgo : a ≤ back a k + 64) (hw : e.behind a k = some w) (hs : IsSltiu w) :
    e.boundBody a (back a k) = some (.inr w.uimm) := by
  unfold boundBody
  rw [if_pos hgo]
  simp only [show e.read (back a k) = some w from hw]
  rw [if_pos (show w.op = 0x0b from hs)]

structure Bounding (e : Env) (a : Word) (k : ℕ) : Prop where
  pos : 0 < k
  clear : Clear (e.behind a) IsSltiu k
  reach : Reaches a k

theorem Bounding.turn (h : e.Bounding a k) :
    (¬ a ≤ back a k + 64 ∨ e.behind a k = none) ∧ e.boundBody a (back a k) = some (.inr 0) ∨
    (∃ w, Nearest (e.behind a) IsSltiu k w ∧ Reaches a (k + 1) ∧
      e.boundBody a (back a k) = some (.inr w.uimm)) ∨
    e.Bounding a (k + 1) ∧ e.boundBody a (back a k) = some (.inl (back a (k + 1))) := by
  by_cases hgo : a ≤ back a k + 64
  · cases hw : e.behind a k with
    | none => exact .inl ⟨.inr rfl, boundBody_stop (.inr hw)⟩
    | some w =>
      by_cases hs : IsSltiu w
      · exact .inr (.inl ⟨w, ⟨h.pos, h.clear, hw, hs⟩, h.reach.succ hgo,
          boundBody_found hgo hw hs⟩)
      · exact .inr (.inr ⟨⟨Nat.succ_pos k, h.clear.succ hw hs, h.reach.succ hgo⟩,
          boundBody_turn hgo hw hs⟩)
  · exact .inl ⟨.inl hgo, boundBody_stop (.inl hgo)⟩

theorem bounding_one (e : Env) (a : Word) : e.Bounding a 1 :=
  ⟨Nat.one_pos, clear_one _ _, fun _ hi hlt => absurd hi (by omega)⟩

theorem Bounding.of_turns {q : Word} (h : Turns (e.boundBody a) (a - 4) q) :
    ∃ k, e.Bounding a k ∧ q = back a k := by
  refine h.inv (fun q => ∃ k, e.Bounding a k ∧ q = back a k) ?_
    ⟨1, bounding_one e a, (back_one a).symm⟩
  rintro q q' ⟨k, hk, rfl⟩ hq
  rcases hk.turn with ⟨-, hb⟩ | ⟨w, -, -, hb⟩ | ⟨hk', hb⟩
  · cases hb.symm.trans hq
  · cases hb.symm.trans hq
  · exact ⟨k + 1, hk', (Sum.inl.inj (Option.some.inj (hb.symm.trans hq))).symm⟩

theorem Bounding.turns (h : e.Bounding a k) : Turns (e.boundBody a) (a - 4) (back a k) := by
  obtain ⟨hpos, hc, hr⟩ := h
  induction k, hpos using Nat.le_induction with
  | base =>
    rw [back_one]
    exact Turns.refl _ _
  | succ k hpos ih =>
    obtain ⟨w, hw, hs⟩ := hc k hpos (Nat.lt_succ_self k)
    have hgo := hr k hpos (Nat.lt_succ_self k)
    exact (ih (hc.mono (Nat.le_succ k)) (hr.mono (Nat.le_succ k))).tail (boundBody_turn hgo hw hs)

/-- The bound is that of the nearest `sltiu`. -/
theorem bound_spec {c : Word} (h : loop (e.boundBody a) n (a - 4) = some c) (hc : c ≠ 0) :
    ∃ k w, Nearest (e.behind a) IsSltiu k w ∧ Reaches a (k + 1) ∧ c = w.uimm := by
  obtain ⟨q, hq, hlast⟩ := loop_turns h
  obtain ⟨k, hk, rfl⟩ := Bounding.of_turns hq
  rcases hk.turn with ⟨-, hb⟩ | ⟨w, hw, hr, hb⟩ | ⟨-, hb⟩
  · exact absurd (Sum.inr.inj (Option.some.inj (hlast.symm.trans hb))) hc
  · exact ⟨k, w, hw, hr, Sum.inr.inj (Option.some.inj (hlast.symm.trans hb))⟩
  · cases hb.symm.trans hlast

theorem bound_found (h : Nearest (e.behind a) IsSltiu k w) (hr : Reaches a (k + 1)) :
    ∃ n, loop (e.boundBody a) n (a - 4) = some w.uimm := by
  have hk : e.Bounding a k := ⟨h.pos, h.clear, hr.mono (Nat.le_succ k)⟩
  exact hk.turns.returns (boundBody_found (hr k h.pos (Nat.lt_succ_self k)) h.get h.kind)

inductive Scanning (e : Env) (jrPc : Word) (r : BitVec 5) : ℕ → Scan → Prop
  | start {k : ℕ} (hk : 0 < k) (hc : Clear (e.behind jrPc) (IsLw r) k) :
      Scanning e jrPc r k ⟨0, r, false⟩
  | loaded {i j : ℕ} {lw : Word} (hlw : Nearest (e.behind jrPc) (IsLw r) i lw) (hj : 0 < j)
      (hc : Clear (e.behind (back jrPc i)) (IsLui lw.rs) j) :
      Scanning e jrPc r (i + j) ⟨lw.simm, lw.rs, true⟩

inductive ScanTurn (e : Env) (jrPc : Word) (r : BitVec 5) (k : ℕ) (s : Scan) : Prop
  | far (hgo : ¬ jrPc ≤ back jrPc k + 64)
      (hb : ∀ n, e.tableBody n jrPc (s, back jrPc k) = some (.inr (some (s, 0))))
  | unread (hgo : jrPc ≤ back jrPc k + 64) (hw : e.behind jrPc k = none)
      (hb : ∀ n, e.tableBody n jrPc (s, back jrPc k) = some (.inr none))
  | pair (hgo : jrPc ≤ back jrPc k + 64) {i j : ℕ} {lw lui : Word} (hij : i + j = k)
      (hp : e.Pair jrPc r i j lw lui)
      (hb : ∀ n, e.tableBody n jrPc (s, back jrPc k) =
        (loop (e.boundBody (back jrPc k)) n (back jrPc k - 4)).map fun count =>
          .inr (some (⟨lw.simm + lui.uimm <<< 16, lw.rs, true⟩, count)))
  | next (hgo : jrPc ≤ back jrPc k + 64) {s' : Scan} (hs : e.Scanning jrPc r (k + 1) s')
      (hb : ∀ n, e.tableBody n jrPc (s, back jrPc k) = some (.inl (s', back jrPc (k + 1))))

theorem scanning_one (e : Env) (jrPc : Word) (r : BitVec 5) :
    e.Scanning jrPc r 1 ⟨0, r, false⟩ := .start Nat.one_pos (clear_one _ _)

theorem Scanning.turn {s : Scan} (h : e.Scanning jrPc r k s) : e.ScanTurn jrPc r k s := by
  by_cases hgo : jrPc ≤ back jrPc k + 64
  swap
  · exact .far hgo fun n => if_neg hgo
  cases hw : e.behind jrPc k with
  | none =>
    refine .unread hgo hw fun n => ?_
    simp only [tableBody, if_pos hgo, show e.read (back jrPc k) = none from hw]
  | some w =>
    have hread : e.read (back jrPc k) = some w := hw
    cases h with
    | start hk hc =>
      by_cases hlw : IsLw r w
      · refine .next hgo (.loaded ⟨hk, hc, hw, hlw⟩ Nat.one_pos (clear_one _ _)) fun n => ?_
        simp only [tableBody, if_pos hgo, hread]
        rw [if_pos ⟨trivial, hlw.1, hlw.2⟩, back_succ]
      · refine .next hgo (.start (Nat.succ_pos k) (hc.succ hw hlw)) fun n => ?_
        simp only [tableBody, if_pos hgo, hread]
        rw [if_neg fun hif => hlw hif.2, if_neg fun hif => Bool.noConfusion hif.1, back_succ]
    | @loaded i j lw hlw hj hc =>
      have hwj : e.behind (back jrPc i) j = some w := by rwa [behind_back]
      by_cases hlui : IsLui lw.rs w
      · refine .pair hgo rfl ⟨hlw, hj, hc, hwj, hlui⟩ fun n => ?_
        simp only [tableBody, if_pos hgo, hread]
        rw [if_neg fun hif => Bool.noConfusion hif.1, if_pos ⟨trivial, hlui.1, hlui.2⟩]
      · have hnext : e.Scanning jrPc r (i + (j + 1)) ⟨lw.simm, lw.rs, true⟩ :=
          .loaded hlw (Nat.succ_pos j) (hc.succ hwj hlui)
        refine .next hgo hnext fun n => ?_
        simp only [tableBody, if_pos hgo, hread]
        rw [if_neg fun hif => Bool.noConfusion hif.1, if_neg fun hif => hlui hif.2, back_succ]

theorem Scanning.le {s : Scan} (h : e.Scanning jrPc r k s) (hp : e.Pair jrPc r i j lw lui) :
    k ≤ i + j := by
  cases h with
  | start hk hc => exact (hc.le hp.load).trans (Nat.le_add_right i j)
  | loaded hlw hj hc =>
    obtain ⟨rfl, rfl⟩ := hlw.unique hp.load
    exact Nat.add_le_add_left (hc.le hp.upper) _

theorem Scanning.read {s : Scan} (h : e.Scanning jrPc r k s) {m : ℕ} (h0 : 0 < m) (hm : m < k) :
    ∃ w, e.behind jrPc m = some w := by
  cases h with
  | start _ hc =>
    obtain ⟨w, hw, -⟩ := hc m h0 hm
    exact ⟨w, hw⟩
  | @loaded i j lw hlw _ hc =>
    rcases Nat.lt_trichotomy m i with hlt | rfl | hlt
    · obtain ⟨w, hw, -⟩ := hlw.clear m h0 hlt
      exact ⟨w, hw⟩
    · exact ⟨lw, hlw.get⟩
    · obtain ⟨d, rfl⟩ : ∃ d, m = i + d := ⟨m - i, by omega⟩
      obtain ⟨w, hw, -⟩ := hc d (by omega) (by omega)
      exact ⟨w, by rwa [← behind_back]⟩

theorem Pair.read (h : e.Pair jrPc r i j lw lui) (h0 : 0 < k) (hk : k ≤ i + j) :
    ∃ w, e.behind jrPc k = some w := by
  have hs : e.Scanning jrPc r (i + j) ⟨lw.simm, lw.rs, true⟩ :=
    .loaded h.load h.upper.pos h.upper.clear
  rcases Nat.lt_or_eq_of_le hk with hlt | rfl
  · exact hs.read h0 hlt
  · rw [← behind_back]
    exact ⟨lui, h.upper.get⟩

theorem Scanning.of_turns {st : Scan × Word}
    (h : Turns (e.tableBody n jrPc) (⟨0, r, false⟩, jrPc - 4) st) :
    ∃ k s, st = (s, back jrPc k) ∧ e.Scanning jrPc r k s ∧ Reaches jrPc k := by
  refine h.inv (fun st => ∃ k s, st = (s, back jrPc k) ∧ e.Scanning jrPc r k s ∧ Reaches jrPc k) ?_
    ⟨1, _, by rw [back_one], scanning_one e jrPc r, fun _ hi hlt => absurd hi (by omega)⟩
  rintro st st' ⟨k, s, rfl, hs, hr⟩ hst
  cases hs.turn with
  | far _ hb => cases (hb n).symm.trans hst
  | unread _ _ hb => cases (hb n).symm.trans hst
  | pair _ _ _ hb =>
    obtain ⟨x, -, hx⟩ := Option.map_eq_some_iff.mp ((hb n).symm.trans hst)
    cases hx
  | next hgo hs' hb =>
    obtain rfl := Sum.inl.inj (Option.some.inj ((hb n).symm.trans hst))
    exact ⟨k + 1, _, rfl, hs', hr.succ hgo⟩

/-- The scan goes past words that are read and complete no pair. -/
theorem scanning_turns (n : ℕ) (h0 : 0 < k)
    (hread : ∀ m, 0 < m → m < k → ∃ w, e.behind jrPc m = some w)
    (hpair : ∀ i j lw lui, e.Pair jrPc r i j lw lui → k ≤ i + j) (hr : Reaches jrPc k) :
    ∃ s, e.Scanning jrPc r k s ∧
      Turns (e.tableBody n jrPc) (⟨0, r, false⟩, jrPc - 4) (s, back jrPc k) := by
  induction k, h0 using Nat.le_induction with
  | base =>
    rw [back_one]
    exact ⟨_, scanning_one e jrPc r, Turns.refl _ _⟩
  | succ k h0 ih =>
    obtain ⟨s, hs, hturns⟩ := ih (fun m hm hlt => hread m hm (Nat.lt_succ_of_lt hlt))
      (fun i j lw lui hp => Nat.le_of_succ_le (hpair i j lw lui hp)) (hr.mono (Nat.le_succ k))
    cases hs.turn with
    | far hgo => exact absurd (hr k h0 (Nat.lt_succ_self k)) hgo
    | unread _ hw =>
      obtain ⟨w, hw'⟩ := hread k h0 (Nat.lt_succ_self k)
      cases hw.symm.trans hw'
    | pair _ hij hp =>
      have := hpair _ _ _ _ hp
      omega
    | next _ hs' hb => exact ⟨_, hs', hturns.tail (hb n)⟩

theorem Pair.turns (h : e.Pair jrPc r i j lw lui) (hr : Reaches jrPc (i + j)) (n : ℕ) :
    ∃ s, e.Scanning jrPc r (i + j) s ∧
      Turns (e.tableBody n jrPc) (⟨0, r, false⟩, jrPc - 4) (s, back jrPc (i + j)) := by
  refine scanning_turns n (Nat.add_pos_left h.load.pos j) (fun m hm hlt => h.read hm hlt.le) ?_ hr
  intro i' j' lw' lui' hp
  obtain ⟨rfl, rfl, -⟩ := h.unique hp
  exact le_rfl

/-- A pair within reach is found, and the scan leaves with what the other scan answers. -/
theorem Pair.found (h : e.Pair jrPc r i j lw lui) (hr : Reaches jrPc (i + j + 1)) {c : Word}
    (hc : loop (e.boundBody (back jrPc (i + j))) n (back jrPc (i + j) - 4) = some c) :
    ∃ m, loop (e.tableBody n jrPc) m (⟨0, r, false⟩, jrPc - 4) =
      some (some (⟨lw.simm + lui.uimm <<< 16, lw.rs, true⟩, c)) := by
  have h0 : 0 < i + j := Nat.add_pos_left h.load.pos j
  obtain ⟨s, hs, hturns⟩ := h.turns (hr.mono (Nat.le_succ _)) n
  cases hs.turn with
  | far hgo => exact absurd (hr _ h0 (Nat.lt_succ_self _)) hgo
  | unread _ hw =>
    obtain ⟨w, hw'⟩ := h.read h0 le_rfl
    cases hw.symm.trans hw'
  | pair _ _ hp hb =>
    obtain ⟨rfl, rfl, rfl, rfl⟩ := h.unique hp
    exact hturns.returns (by rw [hb, hc, Option.map_some])
  | next _ hs' => exact absurd (hs'.le h) (Nat.not_succ_le_self _)

/-- What the scan from the jr leaves with, where it reached a bound. -/
theorem table_spec {s : Scan} {c : Word}
    (h : loop (e.tableBody n jrPc) n (⟨0, r, false⟩, jrPc - 4) = some (some (s, c))) (hc : c ≠ 0) :
    ∃ i j lw lui, e.Pair jrPc r i j lw lui ∧ Reaches jrPc (i + j + 1) ∧
      s.base = lw.simm + lui.uimm <<< 16 ∧
      loop (e.boundBody (back jrPc (i + j))) n (back jrPc (i + j) - 4) = some c := by
  obtain ⟨st, hturns, hlast⟩ := loop_turns h
  obtain ⟨k, s', rfl, hs', hr⟩ := Scanning.of_turns hturns
  cases hs'.turn with
  | far _ hb =>
    obtain ⟨-, rfl⟩ := Prod.mk.inj (Option.some.inj (Sum.inr.inj
      (Option.some.inj ((hb n).symm.trans hlast))))
    exact absurd rfl hc
  | unread _ _ hb => cases Sum.inr.inj (Option.some.inj ((hb n).symm.trans hlast))
  | pair hgo hij hp hb =>
    obtain ⟨x, hx, hsc⟩ := Option.map_eq_some_iff.mp ((hb n).symm.trans hlast)
    obtain ⟨rfl, rfl⟩ := Prod.mk.inj (Option.some.inj (Sum.inr.inj hsc))
    subst hij
    exact ⟨_, _, _, _, hp, hr.succ hgo, rfl, hx⟩
  | next _ _ hb => cases (hb n).symm.trans hlast

def entry (e : Env) (base : Word) (i : ℕ) : Option Word := e.read (base + BitVec.ofNat 32 i * 4)

theorem tableEntries_ok_iff (e : Env) (base : Word) (i k : ℕ) :
    (e.tableEntries base i k).1 = true ↔ ∀ j < k, e.entry base (i + j) ≠ none := by
  induction k generalizing i with
  | zero => exact iff_of_true rfl fun j hj => absurd hj (Nat.not_lt_zero j)
  | succ k ih =>
    unfold tableEntries
    cases hx : e.read (base + BitVec.ofNat 32 i * 4) with
    | none => exact iff_of_false Bool.false_ne_true fun h => h 0 (Nat.succ_pos k) hx
    | some x =>
      simp only
      rw [ih]
      constructor
      · rintro h (_ | j) hj
        · exact fun hnone => Option.some_ne_none x (hx.symm.trans hnone)
        · rw [Nat.add_succ, ← Nat.succ_add]
          exact h j (Nat.lt_of_succ_lt_succ hj)
      · intro h j hj
        rw [Nat.succ_add, ← Nat.add_succ]
        exact h (j + 1) (Nat.succ_lt_succ hj)

theorem tableEntries_all_iff {k : ℕ} :
    (e.tableEntries base 0 k).1 = true ↔ ∀ i < k, e.entry base i ≠ none := by
  rw [tableEntries_ok_iff]
  simp only [Nat.zero_add]

/-- All the words of the table, in order. -/
theorem tableEntries_words {i k : ℕ} (h : (e.tableEntries base i k).1 = true) :
    (e.tableEntries base i k).2.map some = (List.range' i k).map (e.entry base) := by
  induction k generalizing i with
  | zero => rfl
  | succ k ih =>
    rw [List.range'_succ, List.map_cons]
    unfold tableEntries at h ⊢
    cases hx : e.read (base + BitVec.ofNat 32 i * 4) with
    | none => simp only [hx, Bool.false_eq_true] at h
    | some x =>
      simp only [hx] at h ⊢
      rw [List.map_cons, ih h, entry, hx]

/-- Nothing is left behind where the first word is not read. -/
theorem tableEntries_nil_iff {k : ℕ} (hk : 0 < k) (i : ℕ) :
    (e.tableEntries base i k).2 = [] ↔ e.entry base i = none := by
  obtain ⟨k, rfl⟩ : ∃ d, k = d + 1 := ⟨k - 1, by omega⟩
  unfold tableEntries entry
  cases e.read (base + BitVec.ofNat 32 i * 4) with
  | none => exact iff_of_true rfl rfl
  | some x => exact iff_of_false (List.cons_ne_nil _ _) (Option.some_ne_none x)

theorem jumpTable_unique {m : ℕ} {x y : Bool × List Word} (hx : e.jumpTable n jrPc = some x)
    (hy : e.jumpTable m jrPc = some y) : x = y := by
  have hl := jumpTable_mono (Nat.le_max_left n m) hx
  have hr := jumpTable_mono (Nat.le_max_right n m) hy
  exact Option.some.inj (hl.symm.trans hr)

theorem Table.read (h : e.Table jrPc base count) :
    ∃ n, e.jumpTable n jrPc = some (e.tableEntries base 0 count.toNat) := by
  obtain ⟨jr, i, j, k, lw, lui, b, hjr, hp, hb, hr, hrb, rfl, rfl, hc0, hc⟩ := h
  obtain ⟨n, hn⟩ := bound_found hb hrb
  obtain ⟨m, hm⟩ := hp.found hr hn
  have hloop := loop_mono (tableBody_mono (Nat.le_max_left n m) jrPc) (Nat.le_max_right n m) hm
  refine ⟨max n m, ?_⟩
  unfold jumpTable
  simp only [hjr, hloop, Option.map_some]
  rw [if_neg (not_or.mpr ⟨fun h => Bool.noConfusion h, not_or.mpr ⟨hc0, hc⟩⟩)]

/-- What is read is a table that is there. -/
theorem jumpTable_spec {x : Bool × List Word} (h : e.jumpTable n jrPc = some x)
    (hx : x ≠ (false, [])) :
    ∃ base count, e.Table jrPc base count ∧ x = e.tableEntries base 0 count.toNat := by
  unfold jumpTable at h
  cases hjr : e.read jrPc with
  | none =>
    simp only [hjr] at h
    exact absurd (Option.some.inj h).symm hx
  | some jr =>
    simp only [hjr] at h
    obtain ⟨res, hres, rfl⟩ := Option.map_eq_some_iff.mp h
    match res with
    | none => exact absurd rfl hx
    | some (s, c) =>
      simp only at hx ⊢
      split_ifs at hx ⊢ with hif
      · exact absurd rfl hx
      · obtain ⟨-, hc0, hc⟩ : s.haveBase ≠ false ∧ c ≠ 0 ∧ ¬ 256 < c := by
          simpa only [not_or] using hif
        obtain ⟨i, j, lw, lui, hp, hr, hbase, hloop⟩ := table_spec hres hc0
        obtain ⟨k, b, hb, hrb, rfl⟩ := bound_spec hloop hc0
        exact ⟨s.base, b.uimm, ⟨jr, i, j, k, lw, lui, b, hjr, hp, hb, hr, hrb, hbase, rfl, hc0, hc⟩,
          rfl⟩

end Env

end RspBt.R4300
