import RspBt.Rsp.Run

namespace RspBt.RspT

/-- The next instruction, when the machine is running and knows it. -/
def execute (st : RspT × Word) : Option (RspT × Word) :=
  if st.1.halted then none
  else (st.1.core.switch st.2 (fetch st.1.core.imem st.1.pc)).map fun f =>
    ({ core := f.s.zeroR0, pc := st.2, halted := f.halted, nInsns := st.1.nInsns + 1 }, f.after)

def executeN : ℕ → RspT × Word → Option (RspT × Word)
  | 0, st => some st
  | k + 1, st => (execute st).bind (executeN k)

def PastGuard (c : RspT) : Prop := 1 <<< 40 < c.nInsns

/-- The call comes to an instruction after which the guard stops the program. -/
def Runaway (c : RspT) (startPc : Word) : Prop :=
  ∃ st st', Lib.Turns turn (c.start startPc) st ∧ execute st = some st' ∧ st'.1.PastGuard

/-- The program of the call has `k` instructions to execute, or more. -/
def Executes (c : RspT) (startPc : Word) (k : ℕ) : Prop := (executeN k (c.start startPc)).isSome

structure Takes (c : RspT) (startPc : Word) (k : ℕ) (c' : RspT) : Prop where
  insns : ∃ nextPc, executeN k (c.start startPc) = some (c', nextPc)
  halted : c'.halted = true
  returns : ∃ fuel, c.run fuel startPc = some c'

/-- One machine, with `n` instructions behind it: between the calls the CPU does what it likes
with everything but the counter, and no call takes more than 2^40 instructions. -/
inductive Session : RspT → ℕ → Prop
  | boot {c : RspT} (h : c.nInsns = 0) : Session c 0
  | cpu {c : RspT} {n : ℕ} (h : Session c n) (core : Rsp) : Session { c with core := core } n
  | run {c c' : RspT} {n k : ℕ} {startPc : Word} (h : Session c n) (hk : Takes c startPc k c')
      (hle : k ≤ 2 ^ 40) : Session c' (n + k)

theorem pastGuard_iff (c : RspT) : c.PastGuard ↔ 2 ^ 40 < c.nInsns.toNat := Iff.rfl

theorem execute_count {st st' : RspT × Word} (h : execute st = some st') :
    st'.1.nInsns = st.1.nInsns + 1 := by
  unfold execute at h
  split_ifs at h
  obtain ⟨f, -, rfl⟩ := Option.map_eq_some_iff.mp h
  rfl

theorem executeN_succ (k : ℕ) (st : RspT × Word) :
    executeN (k + 1) st = (executeN k st).bind execute := by
  induction k generalizing st with
  | zero => exact Option.bind_fun_some _
  | succ k ih =>
    rw [executeN, executeN, Option.bind_assoc]
    congr 1
    funext st'
    exact ih st'

theorem executeN_count {k : ℕ} {st st' : RspT × Word} (h : executeN k st = some st') :
    st'.1.nInsns = st.1.nInsns + BitVec.ofNat 64 k := by
  induction k generalizing st with
  | zero =>
    obtain rfl := Option.some.inj h
    exact (BitVec.add_zero _).symm
  | succ k ih =>
    obtain ⟨st₁, h₁, h⟩ := Option.bind_eq_some_iff.mp h
    rw [ih h, execute_count h₁, BitVec.add_assoc, Nat.add_comm k, BitVec.ofNat_add]
    rfl

theorem turn_eq {st : RspT × Word} (h : st.1.halted = false) :
    turn st = (execute st).bind fun st' =>
      if 1 <<< 40 < st'.1.nInsns then none else some (.inl st') := by
  have hrun : ¬ st.1.halted = true := by rw [h]; exact Bool.false_ne_true
  simp only [turn, execute, if_neg hrun]
  cases st.1.core.switch st.2 (fetch st.1.core.imem st.1.pc) <;> rfl

theorem not_halted_of_execute {st st' : RspT × Word} (h : execute st = some st') :
    st.1.halted = false := by
  unfold execute at h
  split_ifs at h with hh
  exact Bool.eq_false_of_not_eq_true hh

theorem turn_of_execute {st st' : RspT × Word} (h : execute st = some st')
    (hg : ¬ st'.1.PastGuard) : turn st = some (.inl st') := by
  rw [turn_eq (not_halted_of_execute h), h, Option.bind_some]
  exact if_neg hg

theorem execute_of_turn {st st' : RspT × Word} (h : turn st = some (.inl st')) :
    execute st = some st' ∧ ¬ st'.1.PastGuard := by
  have hrun : st.1.halted = false := by
    by_contra hh
    rw [turn, if_pos (Bool.eq_true_of_not_eq_false hh)] at h
    cases h
  rw [turn_eq hrun] at h
  obtain ⟨st₁, h₁, h⟩ := Option.bind_eq_some_iff.mp h
  split_ifs at h with hg
  obtain rfl := Sum.inl.inj (Option.some.inj h)
  exact ⟨h₁, hg⟩

theorem halted_of_turn {st : RspT × Word} {c : RspT} (h : turn st = some (.inr c)) : c = st.1 := by
  cases hh : st.1.halted with
  | true =>
    rw [turn, if_pos hh] at h
    exact (Sum.inr.inj (Option.some.inj h)).symm
  | false =>
    rw [turn_eq hh] at h
    obtain ⟨st₁, -, h⟩ := Option.bind_eq_some_iff.mp h
    split_ifs at h
    cases h

/-- A call that returns never got past the guard. -/
theorem count_of_run {c c' : RspT} {fuel : ℕ} {startPc : Word} (hc : ¬ c.PastGuard)
    (h : c.run fuel startPc = some c') : ¬ c'.PastGuard := by
  obtain ⟨st, hst, hlast⟩ := Lib.loop_inv (fun st : RspT × Word => ¬ st.1.PastGuard)
    (fun _ _ _ ht => (execute_of_turn ht).2) (show ¬ (c.start startPc).1.PastGuard from hc) h
  rwa [halted_of_turn hlast]

/-- The counter is the instructions of the whole session. -/
theorem Session.count {c : RspT} {n : ℕ} (h : Session c n) :
    c.nInsns.toNat = n ∧ n ≤ 2 ^ 40 := by
  induction h with
  | boot h => exact ⟨by rw [h]; rfl, Nat.zero_le _⟩
  | cpu _ _ ih => exact ih
  | @run c c' n k startPc _ hk hle ih =>
    obtain ⟨nextPc, hins⟩ := hk.insns
    obtain ⟨fuel, hrun⟩ := hk.returns
    have hguard := count_of_run (by rw [pastGuard_iff]; omega) hrun
    have hcount : c'.nInsns.toNat = n + k := by
      have hadd : c'.nInsns = c.nInsns + BitVec.ofNat 64 k := executeN_count hins
      rw [hadd, BitVec.toNat_add, BitVec.toNat_ofNat, ih.1]
      omega
    rw [pastGuard_iff] at hguard
    omega

theorem count_succ {st st' : RspT × Word} (h : execute st = some st')
    (hn : st.1.nInsns.toNat ≤ 2 ^ 40) : st'.1.nInsns.toNat = st.1.nInsns.toNat + 1 := by
  rw [execute_count h, BitVec.toNat_add, show (1 : BitVec 64).toNat = 1 from rfl]
  omega

/-- The turns up to the guard are instructions, each one counted. -/
theorem executeN_of_turns {st st' : RspT × Word} (h : Lib.Turns turn st st')
    (hn : st.1.nInsns.toNat ≤ 2 ^ 40) : ∃ k, executeN k st = some st' ∧
      st'.1.nInsns.toNat = st.1.nInsns.toNat + k ∧ st'.1.nInsns.toNat ≤ 2 ^ 40 := by
  -- on the turns still to come, so that the count grows with each one taken off
  induction h using Relation.ReflTransGen.head_induction_on with
  | refl => exact ⟨0, rfl, rfl, hn⟩
  | @head st st₁ ht _ ih =>
    obtain ⟨hex, hguard⟩ := execute_of_turn ht
    rw [pastGuard_iff] at hguard
    have hcount := count_succ hex hn
    obtain ⟨k, hk, hsum, hle⟩ := ih (by omega)
    refine ⟨k + 1, ?_, by omega, hle⟩
    rw [executeN, hex, Option.bind_some, hk]

/-- An instruction too many is reached, however many turns before it the guard lets through. -/
theorem turns_of_executeN {k : ℕ} {st : RspT × Word} (hn : st.1.nInsns.toNat ≤ 2 ^ 40)
    (hk : (executeN k st).isSome) (hover : 2 ^ 40 < st.1.nInsns.toNat + k) :
    ∃ st₁ st₂, Lib.Turns turn st st₁ ∧ execute st₁ = some st₂ ∧ st₂.1.PastGuard := by
  induction k generalizing st with
  | zero => omega
  | succ k ih =>
    obtain ⟨last, hlast⟩ := Option.isSome_iff_exists.mp hk
    obtain ⟨st', hex, hrest⟩ := Option.bind_eq_some_iff.mp hlast
    have hcount := count_succ hex hn
    -- the guard stops this turn, or lets it through and the rest of the instructions remain
    by_cases hg : st'.1.PastGuard
    · exact ⟨st, st', Lib.Turns.refl turn st, hex, hg⟩
    · have hg' := (pastGuard_iff st'.1).not.mp hg
      have hnext : (executeN k st').isSome := Option.isSome_iff_exists.mpr ⟨last, hrest⟩
      obtain ⟨st₁, st₂, hturns, hlast, hpast⟩ := ih (by omega) hnext (by omega)
      exact ⟨st₁, st₂, hturns.head (turn_of_execute hex hg), hlast, hpast⟩

theorem runaway_iff {c : RspT} (hn : c.nInsns.toNat ≤ 2 ^ 40) (startPc : Word) :
    c.Runaway startPc ↔ ∃ k, c.Executes startPc k ∧ 2 ^ 40 < c.nInsns.toNat + k := by
  constructor
  · rintro ⟨st, st', hturns, hex, hpast⟩
    obtain ⟨k, hk, hsum, hle⟩ := executeN_of_turns hturns hn
    have hcount := count_succ hex hle
    rw [pastGuard_iff] at hpast
    refine ⟨k + 1, ?_, ?_⟩
    · rw [Executes, executeN_succ, hk, Option.bind_some, hex]
      rfl
    · change 2 ^ 40 < (c.start startPc).1.nInsns.toNat + (k + 1)
      omega
  · rintro ⟨k, hk, hover⟩
    exact turns_of_executeN hn hk hover

/-- In every session, a call ends at the guard exactly when its instructions and those of all
the calls before it come to more than 2^40. -/
theorem not_runaway_iff {c : RspT} {n : ℕ} (h : Session c n) (startPc : Word) :
    ¬ c.Runaway startPc ↔ ∀ k, c.Executes startPc k → n + k ≤ 2 ^ 40 := by
  obtain ⟨hcount, hle⟩ := h.count
  rw [runaway_iff (by omega), hcount]
  push Not
  rfl

def breakCore : Rsp := Rsp.withCode [0, 0, 0, 0x0d]

theorem zeroR0_breakCore : breakCore.zeroR0 = breakCore := by
  have hr : Function.update breakCore.r 0 0 = breakCore.r := Function.update_eq_self 0 _
  rw [Rsp.zeroR0, Rsp.setR, hr]

theorem switch_breakCore :
    breakCore.switch 4 (fetch breakCore.imem 0) = some ⟨breakCore, 8, true⟩ := rfl

/-- A `break` at 0, after `m` calls. -/
def breakTask (m : ℕ) : RspT where
  core := breakCore
  pc := 4
  halted := true
  nInsns := BitVec.ofNat 64 m

theorem execute_breakTask (m : ℕ) :
    execute ((breakTask m).start 0) = some (breakTask (m + 1), 8) := by
  have hcount : BitVec.ofNat 64 m + 1 = BitVec.ofNat 64 (m + 1) := (BitVec.ofNat_add m 1).symm
  have hstart : (breakTask m).start 0 = (⟨breakCore, 0, false, BitVec.ofNat 64 m⟩, 4) := rfl
  rw [hstart, execute, if_neg Bool.false_ne_true]
  rw [switch_breakCore, Option.map_some, zeroR0_breakCore, hcount]
  rfl

theorem executes_breakTask {m k : ℕ} (h : (breakTask m).Executes 0 k) : k ≤ 1 := by
  by_contra hk
  obtain ⟨j, rfl⟩ : ∃ j, k = j + 1 + 1 := ⟨k - 2, by omega⟩
  -- the machine has halted when the second instruction is asked for
  have hnone : executeN (j + 1 + 1) ((breakTask m).start 0) = none := by
    rw [executeN, execute_breakTask, Option.bind_some]
    rfl
  rw [Executes, hnone] at h
  cases h

theorem takes_breakTask {m : ℕ} (h : m < 2 ^ 40) :
    Takes (breakTask m) 0 1 (breakTask (m + 1)) where
  insns := ⟨8, by rw [executeN, execute_breakTask]; rfl⟩
  halted := rfl
  returns := by
    have hguard : ¬ (breakTask (m + 1)).PastGuard := by
      rw [pastGuard_iff, breakTask, BitVec.toNat_ofNat]
      omega
    have hturn := turn_of_execute (execute_breakTask m) hguard
    refine ⟨2, ?_⟩
    rw [run, Lib.loop_next hturn]
    exact Lib.loop_done rfl 0

theorem session_breakTask {m : ℕ} (h : m ≤ 2 ^ 40) : Session (breakTask m) m := by
  induction m with
  | zero => exact .boot rfl
  | succ m ih => exact (ih (by omega)).run (takes_breakTask (by omega)) (by decide)

/-- The last call of one instruction that returns. -/
theorem not_runaway_iff_breakTask :
    Session (breakTask (2 ^ 40 - 1)) (2 ^ 40 - 1) ∧ ¬ (breakTask (2 ^ 40 - 1)).Runaway 0 := by
  have hsession : Session (breakTask (2 ^ 40 - 1)) (2 ^ 40 - 1) := session_breakTask (by omega)
  refine ⟨hsession, (not_runaway_iff hsession 0).mpr fun k hk => ?_⟩
  have := executes_breakTask hk
  omega

/-- After 2^40 calls of one instruction the next one is a runaway. -/
theorem runaway_breakTask :
    Session (breakTask (2 ^ 40)) (2 ^ 40) ∧
      (∀ k, (breakTask (2 ^ 40)).Executes 0 k → k ≤ 2 ^ 40) ∧ (breakTask (2 ^ 40)).Runaway 0 := by
  refine ⟨session_breakTask le_rfl, fun k hk => (executes_breakTask hk).trans (by decide), ?_⟩
  refine ⟨_, _, Lib.Turns.refl _ _, execute_breakTask (2 ^ 40), ?_⟩
  rw [pastGuard_iff, breakTask, BitVec.toNat_ofNat]
  decide

end RspBt.RspT
