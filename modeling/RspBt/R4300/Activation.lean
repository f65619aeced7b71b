import RspBt.R4300.Correct

namespace RspBt.R4300

open Lib

namespace Guest

variable {g : Guest} {s : StateT} {link : Word} {n k d e N : ℕ}

theorem nesting_plain (h : g.nesting s n = some d) (he : g.event (g.after s n) = .plain) :
    g.nesting s (n + 1) = some d := by
  simp only [nesting, h, Option.bind_some, he]

theorem nesting_call (h : g.nesting s n = some d) (he : g.event (g.after s n) = .call) :
    g.nesting s (n + 1) = some (d + 1) := by
  simp only [nesting, h, Option.bind_some, he]

theorem nesting_ret (h : g.nesting s n = some d) (he : g.event (g.after s n) = .ret) :
    g.nesting s (n + 1) = if d = 0 then none else some (d - 1) := by
  simp only [nesting, h, Option.bind_some, he]

/-- What starts at depth `d` is that much less deep seen from where it starts. -/
theorem nesting_add (h : g.nesting s n = some d) (hk : g.nesting (g.after s n) k = some e) :
    g.nesting s (n + k) = some (d + e) := by
  induction k generalizing e with
  | zero =>
    obtain rfl : e = 0 := (Option.some.inj hk).symm
    exact h
  | succ k ih =>
    rw [nesting] at hk
    obtain ⟨e', he', hev⟩ := Option.bind_eq_some_iff.mp hk
    have hin := ih he'
    rw [g.after_add] at hev
    rw [← Nat.add_assoc]
    cases hevent : g.event (g.after s (n + k)) with
    | plain =>
      rw [hevent] at hev
      obtain rfl := Option.some.inj hev
      exact nesting_plain hin hevent
    | call =>
      rw [hevent] at hev
      obtain rfl := Option.some.inj hev
      exact nesting_call hin hevent
    | ret =>
      rw [hevent] at hev
      simp only at hev
      split_ifs at hev with h0
      obtain rfl := Option.some.inj hev
      rw [nesting_ret hin hevent, if_neg (by omega)]
      congr 1
      omega

theorem ReturnsAfter.pos (h : g.ReturnsAfter s n) : 0 < n := by
  refine Nat.pos_of_ne_zero ?_
  rintro rfl
  cases h.1

theorem ReturnsAfter.of_ret (h : g.nesting s n = some 0) (he : g.event (g.after s n) = .ret) :
    g.ReturnsAfter s (n + 1) := by
  refine ⟨(nesting_ret h he).trans (if_pos rfl), fun i hi hnone => ?_⟩
  rw [nesting_none (by omega : i ≤ n) hnone] at h
  cases h

theorem ReturnsAfter.last (h : g.ReturnsAfter s (k + 1)) :
    g.nesting s k = some 0 ∧ g.event (g.after s k) = .ret := by
  obtain ⟨e, he⟩ := Option.ne_none_iff_exists'.mp (h.2 k (Nat.lt_succ_self k))
  have hnone := h.1
  cases hevent : g.event (g.after s k) with
  | plain =>
    rw [nesting_plain he hevent] at hnone
    cases hnone
  | call =>
    rw [nesting_call he hevent] at hnone
    cases hnone
  | ret =>
    rw [nesting_ret he hevent] at hnone
    split_ifs at hnone with h0
    exact ⟨h0 ▸ he, rfl⟩

/-- The return of a callee comes back to the depth of the call. -/
theorem nesting_return (h : g.nesting s n = some (d + 1)) (hr : g.ReturnsAfter (g.after s n) k) :
    g.nesting s (n + k) = some d := by
  obtain ⟨k, rfl⟩ : ∃ j, k = j + 1 := ⟨k - 1, by have := hr.pos; omega⟩
  obtain ⟨h0, hev⟩ := hr.last
  rw [g.after_add] at hev
  rw [← Nat.add_assoc, nesting_ret (nesting_add h h0) hev, if_neg (by omega)]
  rfl

/-- Before an activation returns, every callee of it has. -/
theorem ReturnsAfter.callee (hr : g.ReturnsAfter s N) (hn : n ≤ N)
    (h : g.nesting s n = some (d + 1)) :
    ∃ k, g.ReturnsAfter (g.after s n) k ∧ n + k < N := by
  obtain ⟨j, rfl⟩ := Nat.exists_eq_add_of_le hn
  have hnone : g.nesting (g.after s n) j = none := by
    by_contra hne
    obtain ⟨e, he⟩ := Option.ne_none_iff_exists'.mp hne
    have hlive := nesting_add h he
    rw [hr.1] at hlive
    cases hlive
  obtain ⟨k, hk, hret⟩ := exists_returnsAfter hnone
  refine ⟨k, hret, ?_⟩
  have hback := nesting_return h hret
  by_contra hge
  have hlast := nesting_none (by omega : n + j ≤ n + k) hr.1
  rw [hback] at hlast
  cases hlast

/-- Control is not at the link while the activation entered at `s` is live. -/
def Avoids (g : Guest) (s : StateT) (link : Word) : Prop :=
  ∀ k, g.nesting s k ≠ none → lo32 (g.after s k).pc ≠ link

/-- Control first comes to the link when the activation returns to it. -/
theorem firstAt_iff_returns (hconv : g.O32 s) (hra : s.ra = sext32 link) (hav : g.Avoids s link)
    (hlive : g.nesting s k ≠ none) :
    g.FirstAt (g.after s k) link n ↔ g.ReturnsAfter s (k + n) := by
  have hat (m : ℕ) (hm : g.ReturnsAfter s m) : lo32 (g.after s m).pc = link := by
    rw [(hconv m hm).1, hra, lo32_sext32]
  constructor
  · intro hfirst
    have hpc : lo32 (g.after s (k + n)).pc = link := by
      rw [← g.after_add]
      exact hfirst.1
    have hnone : g.nesting s (k + n) = none := by
      by_contra hne
      exact hav _ hne hpc
    obtain ⟨m, hm, hret⟩ := exists_returnsAfter hnone
    have hkm : k ≤ m := by
      by_contra hlt
      exact hlive (nesting_none (by omega) hret.1)
    obtain rfl : m = k + n := by
      by_contra hne
      refine hfirst.2 (m - k) (by omega) ?_
      rw [g.after_add, Nat.add_sub_cancel' hkm]
      exact hat m hret
    exact hret
  · intro hret
    constructor
    · rw [g.after_add]
      exact hat _ hret
    · intro i hi
      rw [g.after_add]
      exact hav _ (hret.2 _ (by omega))

end Guest

/-- The instruction the interpreter is at, with its slot, does not touch the scratch word. -/
structure ApartAt (t : Emitter) (g : Guest) (q : StateT) : Prop where
  insn : ∀ insn, t.cfg.read (lo32 q.pc) = some insn → Away insn q.m
  slot : ∀ insn slot, t.cfg.read (lo32 q.pc) = some insn → isCtl insn →
    t.cfg.read (lo32 q.pc + 4) = some slot → (isLikely insn → branchCond insn q.m) →
    Away slot (linked (lo32 q.pc) insn q.m)
  step : ∀ m, Same q.m m → Alike (g.execMips q) (g.execMips ⟨m, q.pc⟩)

variable {t : Emitter} {g : Guest} {q q' : StateT}

theorem ApartAt.execMips (ha : ApartAt t g q) (h : Alike q q') :
    Alike (g.execMips q) (g.execMips q') := by
  obtain ⟨hpc, hm⟩ := h
  have hstep := ha.step q'.m hm
  rw [hpc] at hstep
  exact hstep

theorem HandedOver.execMips {s' : Mach} (h : HandedOver t q s') (hmips : g.Mips t.cfg t.fp q)
    (ha : ApartAt t g q) : Alike (g.execMips q) (g.execMips ⟨s', q.pc⟩) := by
  rcases h.resumes hmips with hs | halike
  · exact ha.step s' hs
  · exact halike

/-- What is taken of the interpreter and of the guest's run from `q`. -/
structure Disciplined (t : Emitter) (g : Guest) (q : StateT) : Prop where
  mips : ∀ n, g.Mips t.cfg t.fp (g.after q n)
  events : ∀ n, g.Events t.cfg t.fp (g.after q n)
  /-- Address 0 is never executed. -/
  nonzero : ∀ n, lo32 (g.after q n).pc ≠ 0
  apart : ∀ n, ApartAt t g (g.after q n)
  /-- No jalr takes its target from `$31`. -/
  jalr : ∀ n insn, t.cfg.read (lo32 (g.after q n).pc) = some insn → isLink insn →
    ¬ (insn.op = 0x00 ∧ insn.rs = 31)
  /-- The slot of a call leaves its link alone. -/
  linked : ∀ n, g.event (g.after q n) = .call →
    (g.after q (n + 1)).ra = sext32 (lo32 (g.after q n).pc + 8)
  /-- Every activation returns to its `$31`, with its `$sp`. -/
  follows : g.Follows q
  /-- Control does not come back to the site of a call before the callee returns. -/
  avoids : ∀ n, g.event (g.after q n) = .call →
    g.Avoids (g.after q (n + 1)) (lo32 (g.after q n).pc + 8)

namespace Disciplined

variable {n : ℕ}

theorem callee (h : Disciplined t g q) (hn : g.event (g.after q n) = .call) :
    Disciplined t g (g.after q (n + 1)) where
  mips k := by
    rw [Guest.after_add]
    exact h.mips _
  events k := by
    rw [Guest.after_add]
    exact h.events _
  nonzero k := by
    rw [Guest.after_add]
    exact h.nonzero _
  apart k := by
    rw [Guest.after_add]
    exact h.apart _
  jalr k insn := by
    rw [Guest.after_add]
    exact h.jalr _ insn
  linked k := by
    rw [Guest.after_add, Guest.after_add]
    exact h.linked _
  follows := by
    refine ⟨h.follows.2 n hn, fun i => ?_⟩
    rw [Guest.after_add, Guest.after_add]
    exact h.follows.2 _
  avoids k := by
    rw [Guest.after_add, Guest.after_add]
    exact h.avoids _

theorem alike (h : Disciplined t g q) (hq : Alike q q') (n : ℕ) :
    Alike (g.after q n) (g.after q' n) := by
  induction n with
  | zero => exact hq
  | succ n ih =>
    have hsucc (p : StateT) : g.after p (n + 1) = g.execMips (g.after p n) :=
      Function.iterate_succ_apply' ..
    rw [hsucc, hsucc]
    exact (h.apart n).execMips ih

/-- What is handed over after `k` instructions runs alike from the next one on. -/
theorem alike_handedOver (h : Disciplined t g q) {k : ℕ} {s' : Mach}
    (ho : HandedOver t (g.after q k) s') (n : ℕ) :
    Alike (g.after q (k + (n + 1))) (g.after ⟨s', (g.after q k).pc⟩ (n + 1)) := by
  have hsucc (p : StateT) (n : ℕ) : g.after p (n + 1) = g.execMips (g.after p n) :=
    Function.iterate_succ_apply' ..
  induction n with
  | zero =>
    rw [Nat.zero_add, hsucc]
    exact ho.execMips (h.mips k) (h.apart k)
  | succ n ih =>
    rw [← Nat.add_assoc, hsucc, hsucc]
    exact (h.apart _).execMips ih

end Disciplined

end RspBt.R4300
