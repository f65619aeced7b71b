import RspBt.R4300.Cfg

namespace RspBt.R4300

open Lib

def nth (s : Word) (i : ℕ) : Word := s + BitVec.ofNat 32 (4 * i)

@[simp] theorem nth_zero (s : Word) : nth s 0 = s := BitVec.add_zero s

theorem nth_succ (s : Word) (i : ℕ) : nth s (i + 1) = nth s i + 4 := by
  rw [nth, nth, Nat.mul_succ, BitVec.ofNat_add, BitVec.add_assoc]
  rfl

namespace Env

variable (e : Env)

def FallsAt (pc : Word) : Prop := ∃ insn, e.read pc = some insn ∧ (decode pc insn).k = .fall

def TrapAt (pc : Word) : Prop := ∃ insn, e.read pc = some insn ∧ (decode pc insn).k = .trap

def TermAt (pc : Word) (c : Ctl) : Prop :=
  ∃ insn, e.read pc = some insn ∧ decode pc insn = c ∧ c.k ≠ .fall ∧ c.k ≠ .trap

/-- The successors of a transfer: a call comes back past its slot, and `jr $31` leaves. -/
def Succs (pc : Word) (c : Ctl) (l : List Word) : Prop :=
  match c.k with
  | .branch | .likely => l = [c.target, pc + 8]
  | .jump => l = [c.target]
  | .call | .jalr => l = [pc + 8]
  | .jr => if c.reg = 31 then l = [] else ∃ n ok, e.jrTargets n pc = some (ok, l)
  | .fall | .trap => False

/-- Executed, not as a slot, when the function is entered at `entry`. -/
inductive Reached (entry : Word) : Word → Prop
  | entry : Reached entry entry
  | fall {pc : Word} (h : Reached entry pc) (hf : e.FallsAt pc) : Reached entry (pc + 4)
  | succ {pc t : Word} {c : Ctl} {l : List Word} (h : Reached entry pc) (hc : e.TermAt pc c)
      (hl : e.Succs pc c l) (ht : t ∈ l) : Reached entry t

def Target (entry t : Word) : Prop :=
  t = entry ∨ ∃ pc c l, e.Reached entry pc ∧ e.TermAt pc c ∧ e.Succs pc c l ∧ t ∈ l

/-- Where a block is cut: a target, the word past a slot, an unmapped address. -/
def Bound (entry x : Word) : Prop :=
  e.Target entry x ∨ (∃ pc c, e.Reached entry pc ∧ e.TermAt pc c ∧ x = pc + 8) ∨
    (e.Reached entry x ∧ e.read x = none)

theorem Target.reached {e : Env} {entry t : Word} (h : e.Target entry t) : e.Reached entry t := by
  rcases h with rfl | ⟨pc, c, l, hr, hc, hl, ht⟩
  · exact .entry
  · exact .succ hr hc hl ht

def Run (s : Word) (j : ℕ) : Prop := ∀ i < j, e.FallsAt (nth s i)

variable {e}

theorem Run.succ {s : Word} {j : ℕ} (h : e.Run s j) (hf : e.FallsAt (nth s j)) : e.Run s (j + 1) := by
  intro i hi
  rcases Nat.lt_succ_iff_lt_or_eq.mp hi with hlt | rfl
  · exact h i hlt
  · exact hf

theorem Run.reached {entry s : Word} {j : ℕ} (h : e.Run s j) (hs : e.Reached entry s) :
    e.Reached entry (nth s j) := by
  induction j with
  | zero => rwa [nth_zero]
  | succ j ih =>
    rw [nth_succ]
    exact .fall (ih fun i hi => h i (by omega)) (h j (by omega))

theorem Run.stop_unique {s : Word} {j k : ℕ} (hj : e.Run s j) (hk : e.Run s k)
    (hnj : ¬ e.FallsAt (nth s j)) (hnk : ¬ e.FallsAt (nth s k)) : j = k := by
  by_contra hne
  rcases Nat.lt_or_gt_of_ne hne with hlt | hlt
  · exact hnj (hk j hlt)
  · exact hnk (hj k hlt)

theorem TermAt.not_falls {pc : Word} {c : Ctl} (h : e.TermAt pc c) : ¬ e.FallsAt pc := by
  rintro ⟨insn, hr, hk⟩
  obtain ⟨insn', hr', rfl, hf, -⟩ := h
  obtain rfl := Option.some.inj (hr.symm.trans hr')
  exact hf hk

theorem TermAt.not_trap {pc : Word} {c : Ctl} (h : e.TermAt pc c) : ¬ e.TrapAt pc := by
  rintro ⟨insn, hr, hk⟩
  obtain ⟨insn', hr', rfl, -, hf⟩ := h
  obtain rfl := Option.some.inj (hr.symm.trans hr')
  exact hf hk

theorem TermAt.unique {pc : Word} {c c' : Ctl} (h : e.TermAt pc c) (h' : e.TermAt pc c') : c = c' := by
  obtain ⟨insn, hr, rfl, -⟩ := h
  obtain ⟨insn', hr', rfl, -⟩ := h'
  rw [Option.some.inj (hr.symm.trans hr')]

theorem TrapAt.not_falls {pc : Word} (h : e.TrapAt pc) : ¬ e.FallsAt pc := by
  rintro ⟨insn, hr, hk⟩
  obtain ⟨insn', hr', hk'⟩ := h
  obtain rfl := Option.some.inj (hr.symm.trans hr')
  rw [hk] at hk'
  cases hk'

theorem not_falls_of_unread {pc : Word} (h : e.read pc = none) : ¬ e.FallsAt pc := by
  rintro ⟨insn, hr, -⟩
  rw [h] at hr
  cases hr

theorem tableBody_mono {n m : ℕ} (h : n ≤ m) (jrPc : Word) (st : Scan × Word)
    (x : (Scan × Word) ⊕ Option (Scan × Word)) (hx : e.tableBody n jrPc st = some x) :
    e.tableBody m jrPc st = some x := by
  unfold tableBody at hx ⊢
  simp only at hx ⊢
  split_ifs at hx ⊢ with hpc
  · cases hr : e.read st.2 with
    | none =>
      simp only [hr] at hx
      exact hx
    | some insn =>
      simp only [hr] at hx ⊢
      split_ifs at hx ⊢
      · exact hx
      · obtain ⟨count, hc, rfl⟩ := Option.map_eq_some_iff.mp hx
        rw [loop_mono_fuel h hc, Option.map_some]
      · exact hx
  · exact hx

theorem jumpTable_mono {n m : ℕ} (h : n ≤ m) {pc : Word} {r : Bool × List Word}
    (hr : e.jumpTable n pc = some r) : e.jumpTable m pc = some r := by
  unfold jumpTable at hr ⊢
  cases hread : e.read pc with
  | none =>
    simp only [hread] at hr
    exact hr
  | some insn =>
    simp only [hread] at hr ⊢
    obtain ⟨x, hx, rfl⟩ := Option.map_eq_some_iff.mp hr
    rw [loop_mono (tableBody_mono h pc) h hx, Option.map_some]

theorem jrTargets_unique {n m : ℕ} {pc : Word} {r r' : Bool × List Word}
    (h : e.jrTargets n pc = some r) (h' : e.jrTargets m pc = some r') : r = r' := by
  obtain ⟨x, hx, rfl⟩ := Option.map_eq_some_iff.mp h
  obtain ⟨y, hy, rfl⟩ := Option.map_eq_some_iff.mp h'
  have hl := jumpTable_mono (Nat.le_max_left n m) hx
  have hr := jumpTable_mono (Nat.le_max_right n m) hy
  rw [Option.some.inj (hl.symm.trans hr)]

theorem Succs.unique {pc : Word} {c : Ctl} {l l' : List Word} (h : e.Succs pc c l)
    (h' : e.Succs pc c l') : l = l' := by
  obtain ⟨k, target, reg⟩ := c
  cases k
  case jr =>
    simp only [Succs] at h h'
    split_ifs at h h'
    · rw [h, h']
    · obtain ⟨n, ok, hn⟩ := h
      obtain ⟨m, ok', hm⟩ := h'
      exact congrArg Prod.snd (jrTargets_unique hn hm)
  case fall | trap => exact h.elim
  all_goals exact h.trans h'.symm

end Env

end RspBt.R4300
