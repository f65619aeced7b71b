import RspBt.R4300.Interp

namespace RspBt.R4300

open Lib

variable {g : Guest} {link target : Word} {s s' : StateT} {k n m t : ℕ}

theorem Guest.after_succ (g : Guest) (s : StateT) (n : ℕ) :
    g.after s (n + 1) = g.after (g.execMips s) n := Function.iterate_succ_apply ..

theorem Guest.after_add (g : Guest) (s : StateT) (t n : ℕ) :
    g.after (g.after s t) n = g.after s (t + n) := by
  rw [Nat.add_comm]
  exact (Function.iterate_add_apply g.execMips n t s).symm

/-- Once an instruction changes nothing the run stays there. -/
theorem Guest.after_min {N : ℕ} (h : g.execMips (g.after s N) = g.after s N) (n : ℕ) :
    g.after s n = g.after s (min n N) := by
  rcases Nat.le_total n N with hn | hn
  · rw [Nat.min_eq_left hn]
  · obtain ⟨k, rfl⟩ := Nat.exists_eq_add_of_le hn
    rw [Nat.min_eq_right hn, ← g.after_add]
    exact Function.iterate_fixed h k

def Guest.FirstAt (g : Guest) (s : StateT) (link : Word) (n : ℕ) : Prop :=
  lo32 (g.after s n).pc = link ∧ ∀ i < n, lo32 (g.after s i).pc ≠ link

theorem Guest.firstAt_succ (h : lo32 s.pc ≠ link) :
    g.FirstAt s link (n + 1) ↔ g.FirstAt (g.execMips s) link n := by
  unfold FirstAt
  rw [g.after_succ]
  refine and_congr_right fun _ => ⟨fun hb i hi => ?_, fun hb i hi => ?_⟩
  · rw [← g.after_succ]
    exact hb (i + 1) (by omega)
  · cases i with
    | zero => exact h
    | succ i =>
      rw [g.after_succ]
      exact hb i (by omega)

theorem callBody_loop {budget : ℕ} {r : StateT × ℕ} (hb : 0 < budget) (hm : budget ≤ m) :
    loop (callBody g link) m (s, k, budget) = some r ↔
      ∃ n < budget, g.FirstAt s link n ∧ r = (g.after s n, k + n) := by
  induction m generalizing s k budget with
  | zero => omega
  | succ m ih =>
    by_cases hpc : lo32 s.pc = link
    · have hbody : callBody g link (s, k, budget) = some (.inr (s, k)) := by
        simp only [callBody, if_neg (not_not_intro hpc)]
      rw [loop_done hbody]
      constructor
      · intro hr
        exact ⟨0, hb, ⟨hpc, fun i hi => absurd hi (Nat.not_lt_zero i)⟩, (Option.some.inj hr).symm⟩
      · rintro ⟨n, -, hfirst, rfl⟩
        obtain rfl : n = 0 := by
          by_contra hn
          exact hfirst.2 0 (Nat.pos_of_ne_zero hn) hpc
        rfl
    · by_cases hlast : budget - 1 = 0
      · have hbody : callBody g link (s, k, budget) = none := by
          simp only [callBody, if_pos hpc, if_pos hlast]
        rw [loop, hbody]
        refine iff_of_false (by simp) ?_
        rintro ⟨n, hn, hfirst, -⟩
        obtain rfl : n = 0 := by omega
        exact hpc hfirst.1
      · have hbody : callBody g link (s, k, budget) =
            some (.inl (g.execMips s, k + 1, budget - 1)) := by
          simp only [callBody, if_pos hpc, if_neg hlast]
        rw [loop_next hbody, ih (by omega) (by omega)]
        constructor
        · rintro ⟨n, hn, hfirst, rfl⟩
          refine ⟨n + 1, by omega, (Guest.firstAt_succ hpc).mpr hfirst, ?_⟩
          rw [g.after_succ, Nat.add_right_comm, Nat.add_assoc]
        · rintro ⟨n, hn, hfirst, rfl⟩
          cases n with
          | zero => exact absurd hfirst.1 hpc
          | succ n =>
            refine ⟨n, by omega, (Guest.firstAt_succ hpc).mp hfirst, ?_⟩
            rw [g.after_succ, Nat.add_right_comm, Nat.add_assoc]

/-- The call returns where control first comes to the link, if the budget lasts. -/
theorem r4300btCall_iff {r : StateT × ℕ} : r4300btCall g s target link = some r ↔
    ∃ n < 2 ^ 32, g.FirstAt { s with pc := sext32 target } link n ∧
      r = (g.after { s with pc := sext32 target } n, n) := by
  unfold r4300btCall
  rw [callBody_loop (by decide) le_rfl]
  simp only [Nat.zero_add]

theorem Guest.nesting_none {i j : ℕ} (hij : i ≤ j) (h : g.nesting s i = none) :
    g.nesting s j = none := by
  induction hij with
  | refl => exact h
  | step _ ih =>
    rw [nesting, ih]
    rfl

theorem Guest.exists_returnsAfter (h : g.nesting s n = none) : ∃ m ≤ n, g.ReturnsAfter s m := by
  classical
  have hex : ∃ i, g.nesting s i = none := ⟨n, h⟩
  exact ⟨Nat.find hex, Nat.find_min' hex h, Nat.find_spec hex, fun i hi => Nat.find_min hex hi⟩

theorem Guest.ReturnsAfter.unique (hn : g.ReturnsAfter s n) (hm : g.ReturnsAfter s m) : n = m := by
  rcases Nat.lt_trichotomy n m with hlt | heq | hlt
  · exact absurd hn.1 (hm.2 n hlt)
  · exact heq
  · exact absurd hm.1 (hn.2 m hlt)

/-- A call that runs the interpreter from where the activation is after `t` instructions, and
whose link is the activation's `$31`, comes back when the activation returns, exactly when
control does not come to the link before. -/
theorem r4300btCall_returns_iff (hconv : g.O32 s') (hlink : s'.ra = sext32 link)
    (hlive : g.nesting s' t ≠ none) (hs : { s with pc := sext32 target } = g.after s' t) :
    (∀ r n, r4300btCall g s target link = some (r, n) →
      g.ReturnsAfter s' (t + n) ∧ lo32 r.pc = link ∧ r.sp = s'.sp) ↔
    ∀ i < 2 ^ 32, g.nesting s' (t + i) ≠ none → lo32 (g.after s' (t + i)).pc ≠ link := by
  constructor
  · intro h i hi hin hpc
    classical
    -- the first time at the link is no later, so the activation has not returned by then
    have hex : ∃ j, lo32 (g.after s' (t + j)).pc = link := ⟨i, hpc⟩
    have hle : Nat.find hex ≤ i := Nat.find_min' hex hpc
    have hfirst : g.FirstAt { s with pc := sext32 target } link (Nat.find hex) := by
      rw [hs]
      refine ⟨?_, fun j hj => ?_⟩
      · rw [g.after_add]
        exact Nat.find_spec hex
      · rw [g.after_add]
        exact Nat.find_min hex hj
    obtain ⟨hret, -⟩ := h _ _ (r4300btCall_iff.mpr ⟨_, by omega, hfirst, rfl⟩)
    exact hin (Guest.nesting_none (by omega) hret.1)
  · intro h r n hr
    obtain ⟨n, hn, hfirst, heq⟩ := r4300btCall_iff.mp hr
    obtain ⟨rfl, rfl⟩ := Prod.mk.inj heq
    rw [hs] at hfirst ⊢
    rw [g.after_add]
    have hpc : lo32 (g.after s' (t + n)).pc = link := by
      rw [← g.after_add]
      exact hfirst.1
    have hnone : g.nesting s' (t + n) = none := by
      by_contra hne
      exact h n hn hne hpc
    obtain ⟨m, hm, hret⟩ := Guest.exists_returnsAfter hnone
    have hto := hconv m hret
    -- the activation returns to the link, where the loop had not been before
    have htm : t ≤ m := by
      by_contra hlt
      exact hlive (Guest.nesting_none (by omega) hret.1)
    obtain rfl : m = t + n := by
      by_contra hne
      refine hfirst.2 (m - t) (by omega) ?_
      rw [g.after_add, Nat.add_sub_cancel' htm, hto.1, hlink, lo32_sext32]
    exact ⟨hret, hpc, hto.2⟩

/-- A function at 0 that calls the one at 0x20, which calls back unless `$4` is zero. -/
def reentered : Env where
  read a := [(0x00, 0x03e08025),  -- or $16, $31, $0
    (0x04, 0x0c000008),           -- jal 0x20
    (0x08, 0x27bdfff8),           -- addiu $29, $29, -8
    (0x0c, 0x0200f825),           -- or $31, $16, $0
    (0x10, 0x03e00008),           -- jr $31
    (0x14, 0x27bd0008),           -- addiu $29, $29, 8
    (0x20, 0x10800007),           -- beq $4, $0, 0x40
    (0x24, 0),
    (0x28, 0x02008825),           -- or $17, $16, $0
    (0x2c, 0x03e09025),           -- or $18, $31, $0
    (0x30, 0x0c000000),           -- jal 0
    (0x34, 0x00002025),           -- or $4, $0, $0
    (0x38, 0x02208025),           -- or $16, $17, $0
    (0x3c, 0x0240f825),           -- or $31, $18, $0
    (0x40, 0x03e00008),           -- jr $31
    (0x44, 0)].lookup a
  hints _ := none

def reenteredGuest : Guest := reentered.guest .zero id

def atCallee : StateT where
  m := { Mach.zero with gpr := fun r =>
    if r = 4 then 1 else if r = 16 then 0x200 else if r = 29 then 0x1000
    else if r = 31 then 0x0c else 0 }
  pc := 0x20

theorem atCallee_returns : reenteredGuest.ReturnsAfter atCallee 13 := by
  unfold Guest.ReturnsAfter
  decide

theorem atCallee_o32 : reenteredGuest.O32 atCallee := by
  intro n hn
  obtain rfl := hn.unique atCallee_returns
  decide

theorem atCallee_follows : reenteredGuest.Follows atCallee := by
  refine ⟨atCallee_o32, fun i hi => ?_⟩
  -- after 15 instructions the program is at 0x200, where there is nothing to execute
  have hafter : reenteredGuest.after atCallee i = reenteredGuest.after atCallee (min i 15) := by
    have hpc : lo32 (reenteredGuest.after atCallee 15).pc = 0x200 := by
      decide +kernel
    refine Guest.after_min (Env.guest_unread ?_) i
    rw [hpc]
    decide
  -- the two calls are the one back from G to F and the one of F to G
  have hall : ∀ j < 16, reenteredGuest.event (reenteredGuest.after atCallee j) = .call →
      j = 3 ∨ j = 5 := by decide
  have hcall : i = 3 ∨ i = 5 := by
    rw [hafter] at hi
    have hmin := hall _ (by omega) hi
    omega
  rcases hcall with rfl | rfl
  · have hret : reenteredGuest.ReturnsAfter (reenteredGuest.after atCallee 4) 6 := by
      unfold Guest.ReturnsAfter
      decide
    intro n hn
    obtain rfl := hn.unique hret
    decide
  · have hret : reenteredGuest.ReturnsAfter (reenteredGuest.after atCallee 6) 2 := by
      unfold Guest.ReturnsAfter
      decide
    intro n hn
    obtain rfl := hn.unique hret
    decide

theorem r4300btCall_returns_iff_reentered :
    (∀ r n, r4300btCall reenteredGuest atCallee 0x20 0x0c = some (r, n) →
      reenteredGuest.ReturnsAfter atCallee (0 + n) ∧ lo32 r.pc = 0x0c ∧ r.sp = atCallee.sp) ↔
    ∀ i < 2 ^ 32, reenteredGuest.nesting atCallee (0 + i) ≠ none →
      lo32 (reenteredGuest.after atCallee (0 + i)).pc ≠ 0x0c :=
  r4300btCall_returns_iff atCallee_o32 (by decide) (by decide) rfl

/-- The loop stops when the inner call of the site returns, eight bytes down the stack. -/
theorem not_r4300btCall_returns :
    reenteredGuest.Follows atCallee ∧ atCallee.ra = sext32 0x0c ∧
    ∃ r n, r4300btCall reenteredGuest atCallee 0x20 0x0c = some (r, n) ∧
      ¬ reenteredGuest.ReturnsAfter atCallee n ∧ r.sp ≠ atCallee.sp := by
  refine ⟨atCallee_follows, by decide, reenteredGuest.after atCallee 8, 8, ?_, ?_, by decide⟩
  · refine r4300btCall_iff.mpr ⟨8, by decide, ?_, rfl⟩
    unfold Guest.FirstAt
    decide
  · intro hret
    cases hret.unique atCallee_returns

end RspBt.R4300
