import RspBt.R4300.CfgWalk

namespace RspBt.R4300

open Lib

def Env.StopsAt (e : Env) (B : Word → Prop) (pc : Word) : Stop → Prop
  | .unread => e.read pc = none
  | .trap => e.TrapAt pc
  | .control c => e.TermAt pc c
  | .bound => B pc

/-- Where the block ends: past the slot of a transfer, and a trap has none. -/
def Stop.past (pc : Word) : Stop → Word
  | .unread | .bound => pc
  | .trap => pc + 4
  | .control _ => pc + 8

/-- The scan from `s` goes through `k` words, none of them a bound but `s`, and stops. -/
structure Env.Cut (e : Env) (B : Word → Prop) (s : Word) (k : ℕ) (stop : Stop) : Prop where
  run : e.Run s k
  inside : ∀ i, 0 < i → i < k → ¬ B (nth s i)
  stops : e.StopsAt B (nth s k) stop
  last : 0 < k → (stop = .bound ↔ B (nth s k))
  first : k = 0 → stop ≠ .bound

namespace Env

variable {e : Env} {B : Word → Prop} {s pc : Word} {k n : ℕ} {stop : Stop}

theorem TrapAt.read {pc : Word} (h : e.TrapAt pc) : e.read pc ≠ none := by
  obtain ⟨insn, hr, -⟩ := h
  rw [hr]
  exact Option.some_ne_none insn

theorem TermAt.read {pc : Word} {c : Ctl} (h : e.TermAt pc c) : e.read pc ≠ none := by
  obtain ⟨insn, hr, -⟩ := h
  rw [hr]
  exact Option.some_ne_none insn

theorem StopsAt.not_falls (h : e.StopsAt B pc stop) (hb : stop ≠ .bound) : ¬ e.FallsAt pc := by
  cases stop with
  | unread => exact not_falls_of_unread h
  | trap => exact h.not_falls
  | control c => exact h.not_falls
  | bound => exact absurd rfl hb

theorem StopsAt.unique (h : e.StopsAt B pc stop) (hb : stop ≠ .bound) {stop' : Stop}
    (h' : e.StopsAt B pc stop') (hb' : stop' ≠ .bound) : stop = stop' := by
  cases stop with
  | unread =>
    cases stop' with
    | unread => rfl
    | trap => exact absurd h h'.read
    | control c => exact absurd h h'.read
    | bound => exact absurd rfl hb'
  | trap =>
    cases stop' with
    | unread => exact absurd h' h.read
    | trap => rfl
    | control c => exact absurd h h'.not_trap
    | bound => exact absurd rfl hb'
  | control c =>
    cases stop' with
    | unread => exact absurd h' h.read
    | trap => exact absurd h' h.not_trap
    | control c' => rw [h.unique h']
    | bound => exact absurd rfl hb'
  | bound => exact absurd rfl hb

theorem Cut.unique (h : e.Cut B s k stop) {k' : ℕ} {stop' : Stop} (h' : e.Cut B s k' stop') :
    k = k' ∧ stop = stop' := by
  have hle {i j : ℕ} {st st' : Stop} (hi : e.Cut B s i st) (hj : e.Cut B s j st') : ¬ i < j := by
    intro hlt
    -- where one scan stops, the other goes on: the word falls through, so it was a bound
    have hst : st = .bound := by
      by_contra hne
      exact hi.stops.not_falls hne (hj.run i hlt)
    have hpos : 0 < i := Nat.pos_of_ne_zero fun h0 => hi.first h0 hst
    exact hj.inside i hpos hlt ((hi.last hpos).mp hst)
  obtain rfl : k = k' := Nat.le_antisymm (Nat.le_of_not_lt (hle h' h)) (Nat.le_of_not_lt (hle h h'))
  refine ⟨rfl, ?_⟩
  have hbound : stop = .bound ↔ stop' = .bound := by
    rcases Nat.eq_zero_or_pos k with hk | hk
    · exact iff_of_false (h.first hk) (h'.first hk)
    · exact (h.last hk).trans (h'.last hk).symm
  by_cases hb : stop = .bound
  · rw [hb, hbound.mp hb]
  · exact h.stops.unique hb h'.stops fun hb' => hb (hbound.mpr hb')

theorem cutBody_cases {bounds : List Word} {x : Word ⊕ (Word × Stop)}
    (h : cutBody e bounds pc = some x) :
    (e.FallsAt pc ∧ pc + 4 ∉ bounds ∧ x = .inl (pc + 4)) ∨
    (e.FallsAt pc ∧ pc + 4 ∈ bounds ∧ x = .inr (pc + 4, .bound)) ∨
    ∃ st, st ≠ .bound ∧ e.StopsAt (· ∈ bounds) pc st ∧ x = .inr (st.past pc, st) := by
  unfold cutBody at h
  cases hr : e.read pc with
  | none =>
    simp only [hr] at h
    exact .inr (.inr ⟨.unread, by simp, hr, (Option.some.inj h).symm⟩)
  | some insn =>
    simp only [hr] at h
    split_ifs at h with ht hf hm
    · exact .inr (.inr ⟨.trap, by simp, ⟨insn, hr, ht⟩, (Option.some.inj h).symm⟩)
    · exact .inr (.inr ⟨.control _, by simp, ⟨insn, hr, rfl, hf, ht⟩, (Option.some.inj h).symm⟩)
    · exact .inr (.inl ⟨⟨insn, hr, not_not.mp hf⟩, hm, (Option.some.inj h).symm⟩)
    · exact .inl ⟨⟨insn, hr, not_not.mp hf⟩, hm, (Option.some.inj h).symm⟩

/-- What the scan of a block returns. -/
theorem cut_spec {bounds : List Word} {pc : Word}
    (h : loop (cutBody e bounds) n s = some (pc, stop)) :
    ∃ k, e.Cut (· ∈ bounds) s k stop ∧ pc = stop.past (nth s k) := by
  obtain ⟨x, ⟨k, rfl, hrun, hin⟩, hlast⟩ := loop_inv
    (fun x => ∃ k, x = nth s k ∧ e.Run s k ∧ ∀ i, 0 < i → i ≤ k → nth s i ∉ bounds)
    (by
      rintro x y ⟨k, rfl, hrun, hin⟩ hb
      rcases cutBody_cases hb with ⟨hf, hm, hy⟩ | ⟨-, -, hy⟩ | ⟨st, -, -, hy⟩
      · obtain rfl := Sum.inl.inj hy
        refine ⟨k + 1, (nth_succ s k).symm, hrun.succ hf, fun i hi hik => ?_⟩
        rcases Nat.le_succ_iff.mp hik with hle | rfl
        · exact hin i hi hle
        · rwa [nth_succ]
      · cases hy
      · cases hy)
    ⟨0, (nth_zero s).symm, fun i hi => absurd hi (Nat.not_lt_zero i), fun i hi hik => by omega⟩ h
  rcases cutBody_cases hlast with ⟨-, -, hy⟩ | ⟨hf, hm, hy⟩ | ⟨st, hne, hst, hy⟩
  · cases hy
  · -- the last word falls through to a bound, which the block leaves out
    obtain ⟨rfl, rfl⟩ := Prod.mk.inj (Sum.inr.inj hy)
    rw [← nth_succ] at hm
    refine ⟨k + 1, ⟨hrun.succ hf, fun i hi hik => hin i hi (by omega), hm,
      fun _ => iff_of_true rfl hm, fun h0 => absurd h0 (by omega)⟩, (nth_succ s k).symm⟩
  · obtain ⟨rfl, rfl⟩ := Prod.mk.inj (Sum.inr.inj hy)
    exact ⟨k, ⟨hrun, fun i hi hik => hin i hi hik.le, hst,
      fun hk => iff_of_false hne (hin k hk le_rfl), fun _ => hne⟩, rfl⟩

theorem Cut.congr {B' : Word → Prop} (h : e.Cut B s k stop) (hB : ∀ x, B x ↔ B' x) :
    e.Cut B' s k stop := by
  have hBB : B = B' := funext fun x => propext (hB x)
  rwa [← hBB]

end Env

/-- The blocks are those of the targets, each cut at the next bound, with the edges recorded
under its end. -/
structure Built (e : Env) (entry : Word) (p : Pass1) (fn : Func) : Prop where
  done : Pass1.Done e entry p
  entered : fn.entry = entry
  leaf : fn.leaf = p.leaf
  calls : fn.calls = p.calls
  starts : fn.blocks.map Prod.fst = p.leaders
  resolved : ∀ pc c, e.Reached entry pc → e.TermAt pc c → ∃ l, e.Succs pc c l
  stops : ∀ s, e.Target entry s → ∃ j, e.Run s j ∧ ¬ e.FallsAt (nth s j)
  blocks : ∀ s b, (s, b) ∈ fn.blocks → ∃ k stop, e.Cut (e.Bound entry) s k stop ∧
    b = mkBlock e p.edges s (stop.past (nth s k)) stop

theorem cutBlocks_spec {e : Env} {n : ℕ} {p : Pass1} (l : List Word) {fn fn' : Func}
    (hl : ∀ s ∈ l, s ∈ p.seen) (h : cutBlocks e n p l fn = some fn') :
    fn'.entry = fn.entry ∧ fn'.leaf = fn.leaf ∧ fn'.calls = fn.calls ∧
      fn'.blocks.map Prod.fst = fn.blocks.map Prod.fst ++ l ∧
      ∀ s b, (s, b) ∈ fn'.blocks → (s, b) ∈ fn.blocks ∨
        ∃ k stop, e.Cut (· ∈ p.leaders ++ p.ends) s k stop ∧
          b = mkBlock e p.edges s (stop.past (nth s k)) stop := by
  induction l generalizing fn with
  | nil =>
    obtain rfl := Option.some.inj h
    exact ⟨rfl, rfl, rfl, (List.append_nil _).symm, fun s b hb => .inl hb⟩
  | cons start rest ih =>
    rw [List.forall_mem_cons] at hl
    rw [cutBlocks, if_neg (not_not_intro hl.1)] at h
    cases hloop : loop (cutBody e (p.leaders ++ p.ends)) n start with
    | none =>
      simp only [hloop] at h
      cases h
    | some x =>
      obtain ⟨pc, stop⟩ := x
      simp only [hloop] at h
      obtain ⟨hentry, hleaf, hcalls, hstarts, hblocks⟩ := ih hl.2 h
      obtain ⟨k, hcut, rfl⟩ := Env.cut_spec hloop
      refine ⟨hentry, hleaf, hcalls, ?_, fun s b hb => ?_⟩
      · rw [hstarts, List.map_append, List.map_singleton, List.append_assoc, List.singleton_append]
      · rcases hblocks s b hb with hold | hnew
        · rcases List.mem_append.mp hold with hold | hself
          · exact .inl hold
          · obtain ⟨rfl, rfl⟩ := Prod.mk.inj (List.mem_singleton.mp hself)
            exact .inr ⟨k, stop, hcut, rfl⟩
        · exact .inr hnew

theorem build_walked {e : Env} {n : ℕ} {entry : Word} {p : Pass1} {fn : Func} {log : Log}
    (hw : Pass1.walk e n entry = some p) (h : build e n entry = some (fn, log)) :
    Built e entry p fn ∧ log = p.log := by
  unfold build at h
  simp only [hw] at h
  obtain ⟨fn', hcut, hfn⟩ := Option.map_eq_some_iff.mp h
  obtain ⟨rfl, rfl⟩ := Prod.mk.inj hfn
  obtain ⟨hinv, hwork⟩ := Pass1.walk_inv hw
  have hdone := hinv.done hwork
  obtain ⟨hentry, hleaf, hcalls, hstarts, hblocks⟩ := cutBlocks_spec p.leaders
    (fun s hs => (hdone.seen s).mpr ((hdone.leaders s).mp hs)) hcut
  refine ⟨⟨hdone, hentry, hleaf, hcalls, hstarts,
    fun pc c hr hc => hinv.resolved hwork hr hc,
    fun s hs => ?_, fun s b hb => ?_⟩, rfl⟩
  · obtain ⟨j, hrun, hnf, -⟩ := hinv.stops ((hdone.seen s).mpr hs)
    exact ⟨j, hrun, hnf⟩
  · rcases hblocks s b hb with hold | ⟨k, stop, hc, hb⟩
    · cases hold
    · exact ⟨k, stop, hc.congr hdone.bounds, hb⟩

theorem build_spec {e : Env} {n : ℕ} {entry : Word} {fn : Func} {log : Log}
    (h : build e n entry = some (fn, log)) : ∃ p, Built e entry p fn ∧ log = p.log := by
  cases hw : Pass1.walk e n entry with
  | none =>
    simp only [build, hw] at h
    cases h
  | some p => exact ⟨p, build_walked hw h⟩

end RspBt.R4300
