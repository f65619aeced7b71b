import RspBt.R4300.TableScan

namespace RspBt.R4300

open Lib

variable {a : Word} {k : ℕ}

theorem not_ahead_seventeen (h : 4 ≤ a.toNat) : ¬ a ≤ back a 17 + 64 := by
  rw [BitVec.le_def, toNat_ahead]
  omega

/-- At the lowest address the comparison is always true. -/
theorem le_ahead (h : a.toNat < 4) (k : ℕ) : a ≤ back a k + 64 := by
  rw [BitVec.le_def, toNat_ahead]
  omega

theorem reaches_all (h : a.toNat < 4) (k : ℕ) : Reaches a k := fun i _ _ => le_ahead h i

theorem back_ne_back_seventeen (hk : k ≤ 16) : back a 17 ≠ back a k := by
  intro heq
  have hval := congrArg BitVec.toNat heq
  simp only [back, BitVec.toNat_sub, BitVec.toNat_ofNat] at hval
  omega

def Before (a q : Word) : Prop := ∃ k, 0 < k ∧ k ≤ 16 ∧ q = back a k

theorem not_before_seventeen : ¬ Before a (back a 17) := by
  rintro ⟨k, -, hk, heq⟩
  exact back_ne_back_seventeen hk heq

theorem Reaches.short (hr : Reaches a k) (h : a.toNat < 4 → k ≤ 16) :
    k ≤ 17 ∧ (a ≤ back a k + 64 → k ≤ 16) := by
  by_cases ha : a.toNat < 4
  · have := h ha
    exact ⟨by omega, fun _ => this⟩
  · have hfar := not_ahead_seventeen (Nat.not_lt.mp ha)
    have hk : k ≤ 17 := by
      by_contra hlt
      exact hfar (hr 17 (by omega) (by omega))
    refine ⟨hk, fun hgo => ?_⟩
    rcases Nat.lt_or_eq_of_le hk with hlt | rfl
    · omega
    · exact absurd hgo hfar

namespace Env

variable {e : Env} {jrPc jr lw lui w : Word} {i j n : ℕ} {r : BitVec 5} {s : Scan}

/-- The scan from the jr is at the `lui` it looks for, from where the other scan goes on. -/
structure AtLui (e : Env) (jrPc : Word) (s : Scan) (a : Word) : Prop where
  go : jrPc ≤ a + 64
  base : s.haveBase = true
  upper : ∃ insn, e.read a = some insn ∧ IsLui s.reg insn

/-- `jump_table` returns, and each of its scans looks at sixteen words at most. -/
structure ScansBounded (e : Env) (jrPc : Word) : Prop where
  ends : ∃ n x, e.jumpTable n jrPc = some x
  table : ∀ jr, e.read jrPc = some jr → ∀ n s pc,
    Turns (e.tableBody n jrPc) (⟨0, jr.rs, false⟩, jrPc - 4) (s, pc) → jrPc ≤ pc + 64 →
    Before jrPc pc
  bound : ∀ jr, e.read jrPc = some jr → ∀ n s a,
    Turns (e.tableBody n jrPc) (⟨0, jr.rs, false⟩, jrPc - 4) (s, a) → e.AtLui jrPc s a →
    ∀ q, Turns (e.boundBody a) (a - 4) q → a ≤ q + 64 → Before a q

def BoundStops (e : Env) (a : Word) : Prop :=
  ∃ k, 0 < k ∧ k ≤ 16 ∧ ∀ w, e.behind a k = some w → IsSltiu w

/-- The jr is not read, or the sixteen words before it end the scan: one of them is not read,
or the pair is among them. -/
def TableStops (e : Env) (jrPc : Word) : Prop :=
  e.read jrPc = none ∨ (∃ k, 0 < k ∧ k ≤ 16 ∧ e.behind jrPc k = none) ∨
  ∃ jr i j lw lui, e.read jrPc = some jr ∧ e.Pair jrPc jr.rs i j lw lui ∧ i + j ≤ 16

theorem Bounding.le (h : e.Bounding a k) (hs : e.BoundStops a) : k ≤ 16 := by
  obtain ⟨m, hm, hm16, hstop⟩ := hs
  by_contra hlt
  obtain ⟨w, hw, hnot⟩ := h.clear m hm (by omega)
  exact hnot (hstop w hw)

theorem Scanning.pos (h : e.Scanning jrPc r k s) : 0 < k := by
  cases h with
  | start hk => exact hk
  | loaded hlw => exact Nat.add_pos_left hlw.pos _

theorem Scanning.le_of_stops (h : e.Scanning jrPc jr.rs k s) (hjr : e.read jrPc = some jr)
    (hs : e.TableStops jrPc) : k ≤ 16 := by
  rcases hs with hnone | ⟨m, hm, hm16, hnone⟩ | ⟨jr', i, j, lw, lui, hjr', hp, hij⟩
  · cases hnone.symm.trans hjr
  · by_contra hlt
    obtain ⟨w, hw⟩ := h.read hm (by omega)
    cases hnone.symm.trans hw
  · obtain rfl := Option.some.inj (hjr.symm.trans hjr')
    exact (h.le hp).trans hij

/-- At its `lui` the scan has its pair. -/
theorem AtLui.pair (h : e.AtLui jrPc s (back jrPc k)) (hs : e.Scanning jrPc r k s) :
    ∃ i j lw lui, i + j = k ∧ e.Pair jrPc r i j lw lui := by
  obtain ⟨-, hbase, insn, hread, hlui⟩ := h
  cases hs with
  | start => cases hbase
  | @loaded i j lw hlw hj hc =>
    have hget : e.behind (back jrPc i) j = some insn := by rwa [behind_back]
    exact ⟨i, j, lw, insn, rfl, hlw, hj, hc, hget, hlui⟩

theorem Pair.atLui (h : e.Pair jrPc r i j lw lui) (hs : e.Scanning jrPc r (i + j) s)
    (hgo : jrPc ≤ back jrPc (i + j) + 64) : e.AtLui jrPc s (back jrPc (i + j)) := by
  have hget := h.upper.get
  rw [behind_back] at hget
  have hj := h.upper.pos
  have hstate : s.haveBase = true ∧ s.reg = lw.rs := by
    generalize hk : i + j = k at hs
    cases hs with
    | start _ hc =>
      have := hc.le h.load
      omega
    | loaded hlw =>
      obtain ⟨rfl, rfl⟩ := hlw.unique h.load
      exact ⟨rfl, rfl⟩
  exact ⟨hgo, hstate.1, lui, hget, by rw [hstate.2]; exact h.upper.kind⟩

theorem Scanning.short {pc : Word} (hjr : e.read jrPc = some jr)
    (h : jrPc.toNat < 4 → e.TableStops jrPc)
    (hturns : Turns (e.tableBody n jrPc) (⟨0, jr.rs, false⟩, jrPc - 4) (s, pc)) :
    ∃ k, pc = back jrPc k ∧ e.Scanning jrPc jr.rs k s ∧ (jrPc ≤ pc + 64 → k ≤ 16) := by
  obtain ⟨k, s', heq, hs, hr⟩ := Scanning.of_turns hturns
  obtain ⟨rfl, rfl⟩ := Prod.mk.inj heq
  exact ⟨k, rfl, hs, (hr.short fun hlow => hs.le_of_stops hjr (h hlow)).2⟩

theorem bound_returns (h : a.toNat < 4 → e.BoundStops a) :
    ∃ c, loop (e.boundBody a) 17 (a - 4) = some c := by
  -- the rank is how many of the sixteen words are left
  obtain ⟨c, hc, -⟩ := loop_ranked
    (fun m q => ∃ k, k ≤ 17 ∧ m = 17 - k ∧ q = back a k ∧ e.Bounding a k) (fun _ => True)
    (by
      rintro m q ⟨k, hk, rfl, rfl, hb⟩
      rcases hb.turn with ⟨-, hq⟩ | ⟨w, -, -, hq⟩ | ⟨hb', hq⟩
      · exact .inl ⟨_, hq, trivial⟩
      · exact .inl ⟨_, hq, trivial⟩
      · have hk' := (hb'.reach.short fun ha => hb'.le (h ha)).1
        exact .inr ⟨_, _, by omega, hq, k + 1, hk', rfl, rfl, hb'⟩)
    ⟨1, by omega, rfl, (back_one a).symm, bounding_one e a⟩ (show 17 - 1 < 17 by omega)
  exact ⟨c, hc⟩

theorem table_returns (hjr : e.read jrPc = some jr) (h : jrPc.toNat < 4 → e.TableStops jrPc)
    (hbound : ∀ i j lw lui, e.Pair jrPc jr.rs i j lw lui → i + j ≤ 16 →
      (back jrPc (i + j)).toNat < 4 → e.BoundStops (back jrPc (i + j))) :
    ∃ x, loop (e.tableBody 17 jrPc) 17 (⟨0, jr.rs, false⟩, jrPc - 4) = some x := by
  obtain ⟨x, hx, -⟩ := loop_ranked
    (fun m st => ∃ k s, k ≤ 17 ∧ m = 17 - k ∧ st = (s, back jrPc k) ∧
      e.Scanning jrPc jr.rs k s ∧ Reaches jrPc k) (fun _ => True)
    (by
      rintro m st ⟨k, s, hk, rfl, rfl, hs, hr⟩
      have hshort := hr.short fun hlow => hs.le_of_stops hjr (h hlow)
      cases hs.turn with
      | far _ hb => exact .inl ⟨_, hb 17, trivial⟩
      | unread _ _ hb => exact .inl ⟨_, hb 17, trivial⟩
      | pair hgo hij hp hb =>
        subst hij
        obtain ⟨c, hc⟩ := bound_returns (hbound _ _ _ _ hp (hshort.2 hgo))
        exact .inl ⟨_, by rw [hb, hc, Option.map_some], trivial⟩
      | next hgo hs' hb =>
        have hk' := hshort.2 hgo
        exact .inr ⟨_, _, by omega, hb 17, k + 1, _, by omega, rfl, rfl, hs', hr.succ hgo⟩)
    ⟨1, _, by omega, rfl, by rw [back_one], scanning_one e jrPc jr.rs,
      fun _ hi hlt => absurd hi (by omega)⟩ (show 17 - 1 < 17 by omega)
  exact ⟨x, hx⟩

/-- With nothing in the sixteen words to end it, the scan from a jr at the lowest address looks
at a seventeenth. -/
theorem ScansBounded.tableStops (h : e.ScansBounded jrPc) (hlow : jrPc.toNat < 4) :
    e.TableStops jrPc := by
  by_contra hnot
  obtain ⟨hread, hwords, hpair⟩ : e.read jrPc ≠ none ∧
      (¬ ∃ k, 0 < k ∧ k ≤ 16 ∧ e.behind jrPc k = none) ∧
      ¬ ∃ jr i j lw lui, e.read jrPc = some jr ∧ e.Pair jrPc jr.rs i j lw lui ∧ i + j ≤ 16 := by
    simpa only [TableStops, not_or] using hnot
  obtain ⟨jr, hjr⟩ := Option.ne_none_iff_exists'.mp hread
  have hsome (m : ℕ) (h0 : 0 < m) (hm : m < 17) : ∃ w, e.behind jrPc m = some w :=
    Option.ne_none_iff_exists'.mp fun hnone => hwords ⟨m, h0, by omega, hnone⟩
  have hfar (i j : ℕ) (lw lui : Word) (hp : e.Pair jrPc jr.rs i j lw lui) : 17 ≤ i + j := by
    by_contra hlt
    exact hpair ⟨jr, i, j, lw, lui, hjr, hp, by omega⟩
  obtain ⟨s, -, hturns⟩ := scanning_turns 0 (by omega) hsome hfar (reaches_all hlow 17)
  exact not_before_seventeen (h.table jr hjr 0 s _ hturns (le_ahead hlow 17))

/-- So does the scan from a `lui` there. -/
theorem ScansBounded.boundStops (h : e.ScansBounded jrPc) (hjr : e.read jrPc = some jr)
    (hp : e.Pair jrPc jr.rs i j lw lui) (hij : i + j ≤ 16)
    (hlow : (back jrPc (i + j)).toNat < 4) : e.BoundStops (back jrPc (i + j)) := by
  by_contra hnot
  have hreach : Reaches jrPc 17 := by
    refine reaches_seventeen ?_
    rw [back, BitVec.toNat_sub, BitVec.toNat_ofNat] at hlow
    omega
  obtain ⟨s, hs, hturns⟩ := hp.turns (hreach.mono (by omega)) 0
  have h0 : 0 < i + j := Nat.add_pos_left hp.load.pos j
  have hat := hp.atLui hs (hreach (i + j) h0 (by omega))
  have hclear : Clear (e.behind (back jrPc (i + j))) IsSltiu 17 := by
    intro m hm hlt
    by_contra hnone
    refine hnot ⟨m, hm, by omega, fun w hw => ?_⟩
    by_contra hkind
    exact hnone ⟨w, hw, hkind⟩
  have hb : e.Bounding (back jrPc (i + j)) 17 := ⟨by omega, hclear, reaches_all hlow 17⟩
  exact not_before_seventeen (h.bound jr hjr 0 s _ hturns hat _ hb.turns (le_ahead hlow 17))

/-- The scans are bounded unless one starts at the lowest address with sixteen words before it
that do not end it. -/
theorem scansBounded_iff : e.ScansBounded jrPc ↔
    (jrPc.toNat < 4 → e.TableStops jrPc) ∧
    ∀ jr i j lw lui, e.read jrPc = some jr → e.Pair jrPc jr.rs i j lw lui → i + j ≤ 16 →
      (back jrPc (i + j)).toNat < 4 → e.BoundStops (back jrPc (i + j)) := by
  constructor
  · exact fun h => ⟨h.tableStops, fun jr i j lw lui hjr hp hij hlow => h.boundStops hjr hp hij hlow⟩
  · rintro ⟨htable, hbound⟩
    refine ⟨?_, fun jr hjr n s pc hturns hgo => ?_, fun jr hjr n s a hturns hat q hq hgo => ?_⟩
    · cases hjr : e.read jrPc with
      | none => exact ⟨0, (false, []), by simp only [jumpTable, hjr]⟩
      | some jr =>
        obtain ⟨x, hx⟩ := table_returns hjr htable fun i j lw lui => hbound jr i j lw lui hjr
        exact ⟨17, _, by simp only [jumpTable, hjr, hx, Option.map_some]; rfl⟩
    · obtain ⟨k, rfl, hs, hshort⟩ := Scanning.short hjr htable hturns
      exact ⟨k, hs.pos, hshort hgo, rfl⟩
    · obtain ⟨k, rfl, hs, hshort⟩ := Scanning.short hjr htable hturns
      obtain ⟨i, j, lw, lui, rfl, hp⟩ := hat.pair hs
      obtain ⟨m, hm, rfl⟩ := Bounding.of_turns hq
      have hstops := hbound jr i j lw lui hjr hp (hshort hat.go)
      have hm16 := hm.reach.short fun hlow => hm.le (hstops hlow)
      exact ⟨m, hm.pos, hm16.2 hgo, rfl⟩

def jrs : Env := ⟨fun _ => some 0x01000008, fun _ => none⟩

/-- From address 0 through nothing but `jr`s the scan never ends. -/
theorem jrs_jumpTable (n : ℕ) : jrs.jumpTable n 0 = none := by
  have hnone : loop (jrs.tableBody n 0) n (⟨0, 8, false⟩, 0 - 4) = none := by
    rw [Option.eq_none_iff_forall_ne_some]
    intro x hx
    obtain ⟨st, hturns, hlast⟩ := loop_turns hx
    obtain ⟨k, s, rfl, hs, -⟩ := Scanning.of_turns hturns
    cases hs.turn with
    | far hgo => exact hgo (le_ahead (by decide) k)
    | unread _ hw => cases hw
    | pair _ _ hp => exact absurd hp.load.kind.1 (by rw [← Option.some.inj hp.load.get]; decide)
    | next _ _ hb => cases (hb n).symm.trans hlast
  change (loop (jrs.tableBody n 0) n (⟨0, 8, false⟩, 0 - 4)).map _ = none
  rw [hnone, Option.map_none]

/-- A jr at address 0 in a memory that maps every address. -/
theorem not_scansBounded :
    ¬ ∀ e : Env, ∀ jrPc : Word, jrPc.toNat % 4 = 0 → e.ScansBounded jrPc := by
  intro h
  obtain ⟨n, x, hx⟩ := (h jrs 0 rfl).ends
  cases (jrs_jumpTable n).symm.trans hx

end Env

end RspBt.R4300
