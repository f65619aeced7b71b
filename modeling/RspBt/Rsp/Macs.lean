import RspBt.Rsp.Fixed
import RspBt.Rsp.Invariant

namespace RspBt.Rsp

open Lib

/-- A multiplication: whether it starts a sum, what it adds, and which half it returns. -/
structure Mac where
  starts : Bool
  term : BitVec 16 → BitVec 16 → ℤ
  high : Bool

def macOf : BitVec 6 → Option Mac
  | 0x00 => some ⟨true, fun s t => s.toInt * t.toInt * 2 + 0x8000, true⟩        -- vmulf
  | 0x04 => some ⟨true, fun s t => (s.toNat * t.toNat : ℤ) / 2 ^ 16, false⟩      -- vmudl
  | 0x05 => some ⟨true, fun s t => s.toInt * t.toNat, true⟩                      -- vmudm
  | 0x06 => some ⟨true, fun s t => s.toNat * t.toInt, false⟩                     -- vmudn
  | 0x07 => some ⟨true, fun s t => s.toInt * t.toInt * 2 ^ 16, true⟩             -- vmudh
  | 0x08 => some ⟨false, fun s t => s.toInt * t.toInt * 2, true⟩                 -- vmacf
  | 0x0d => some ⟨false, fun s t => s.toInt * t.toNat, true⟩                     -- vmadm
  | 0x0e => some ⟨false, fun s t => s.toNat * t.toInt, false⟩                    -- vmadn
  | 0x0f => some ⟨false, fun s t => s.toInt * t.toInt * 2 ^ 16, true⟩            -- vmadh
  | _ => none

namespace Mac

variable (o : Mac)

def sum (z : ℤ) (s t : BitVec 16) : ℤ := (if o.starts then 0 else z) + o.term s t

/-- What is returned of a sum: a half of its residue, saturated to 32 bits. -/
def result (z : ℤ) : BitVec 16 :=
  (satS 32 (z.bmod (2 ^ 48))).extractLsb' (if o.high then 16 else 0) 16

end Mac

theorem fits_bmod (z : ℤ) : FitsS 48 (z.bmod (2 ^ 48)) := by
  have hl := Int.le_bmod (x := z) (m := 2 ^ 48) (by decide)
  have hr := Int.bmod_lt (x := z) (m := 2 ^ 48) (by decide)
  constructor <;> omega

theorem bmod_of_fits {z : ℤ} (h : FitsS 48 z) : z.bmod (2 ^ 48) = z := by
  obtain ⟨hl, hr⟩ := h
  apply Int.bmod_eq_of_le <;> omega

def Lane.Holds (l : Lane) (o : Mac) (z : ℤ) (l' : Lane) : Prop :=
  l'.acc.toInt = z.bmod (2 ^ 48) ∧ l'.res = o.result z ∧
    l' = { l with acc := l'.acc, res := l'.res }

theorem Lane.holds_accMid {o : Mac} (ho : o.high = true) (l : Lane) {a : BitVec 64} {z : ℤ}
    (ha : a.toInt = z.bmod (2 ^ 48)) : l.Holds o z (l.accMid a) := by
  refine ⟨ha, ?_, rfl⟩
  rw [Mac.result, if_pos ho, ← ha]
  exact clampS16_mid a

theorem Lane.holds_accLow {o : Mac} (ho : o.high = false) (l : Lane) {a : BitVec 64} {z : ℤ}
    (ha : a.toInt = z.bmod (2 ^ 48)) : l.Holds o z (l.accLow a) := by
  refine ⟨ha, ?_, rfl⟩
  rw [Mac.result, if_neg (by simp [ho]), ← ha]
  exact clampAccLow_eq a

/-- The accumulator of a multiplication is the sum of the integers, modulo 2^48. -/
theorem Mac.lane {fn : BitVec 6} {o : Mac} (ho : macOf fn = some o) :
    ∃ op, vecOp fn = some op ∧ ∀ (e : BitVec 4) (s t : BitVec 16) (l : Lane),
      FitsS 48 l.acc.toInt → l.Holds o (o.sum l.acc.toInt s t) (op e s t l) := by
  have hexp {x : IntExp Operand} {s t : BitVec 16} {l : Lane} (hx : x ∈ vecExps fn)
      (hl : FitsS 48 l.acc.toInt) : (sext48 (x.word (operand s t l))).toInt =
        (x.value fun o => (operand s t l o).toInt).bmod (2 ^ 48) := by
    rw [toInt_sext48, toInt_exp fn hx hl]
  unfold macOf at ho
  split at ho
  case h_10 => cases ho
  case h_2 =>
    obtain rfl := Option.some.inj ho
    refine ⟨_, rfl, fun e s t l hl => Lane.holds_accLow rfl l ?_⟩
    have hs := s.isLt
    have ht := t.isLt
    have hle : (s.toNat * t.toNat : ℤ) / 2 ^ 16 < 2 ^ 16 := by
      have hmul : s.toNat * t.toNat < 2 ^ 16 * 2 ^ 16 := Nat.mul_lt_mul'' hs ht
      have hcast : ((s.toNat * t.toNat : ℕ) : ℤ) < 2 ^ 16 * 2 ^ 16 := by exact_mod_cast hmul
      rw [Nat.cast_mul] at hcast
      omega
    have hpos : 0 ≤ (s.toNat * t.toNat : ℤ) / 2 ^ 16 := by positivity
    rw [toInt_vmudl]
    simp only [Mac.sum, if_true, zero_add]
    exact (bmod_of_fits ⟨by omega, by omega⟩).symm
  case h_4 | h_8 =>
    obtain rfl := Option.some.inj ho
    refine ⟨_, rfl, fun e s t l hl => Lane.holds_accLow rfl l ?_⟩
    have h := hexp (s := s) (t := t) (List.mem_singleton_self _) hl
    simp only [IntExp.value, toInt_su, toInt_tt, toInt_acc] at h
    simp only [Mac.sum, if_true, Bool.false_eq_true, if_false, zero_add]
    exact h
  all_goals
    obtain rfl := Option.some.inj ho
    refine ⟨_, rfl, fun e s t l hl => Lane.holds_accMid rfl l ?_⟩
    have h := hexp (s := s) (t := t) (List.mem_singleton_self _) hl
    simp only [IntExp.value, toInt_ss, toInt_tt, toInt_tu, toInt_acc] at h
    simp only [Mac.sum, if_true, Bool.false_eq_true, if_false, zero_add]
    exact h

/-- The vector registers, with sums that do not wrap. -/
@[ext]
structure Sums where
  v : BitVec 5 → Fin 8 → BitVec 16
  acc : Fin 8 → ℤ

namespace Sums

variable (u : Sums)

def next (o : Mac) (w : Word) (i : Fin 8) : ℤ :=
  o.sum (u.acc i) (u.v w.rd i) (u.v w.rt (vtLane w.vecE i))

/-- One multiplication; any other word changes nothing. -/
def exec (w : Word) : Sums :=
  match macOf w.fn with
  | none => u
  | some o => ⟨Function.update u.v w.sa fun i => o.result (u.next o w i), u.next o w⟩

end Sums

/-- The registers are the same, and the accumulator holds the sums modulo 2^48. -/
structure Sums.Abs (u : Sums) (s : Rsp) : Prop where
  v : s.v = u.v
  acc : ∀ i, (s.acc i).toInt = (u.acc i).bmod (2 ^ 48)

def IsMac (w : Word) : Prop := w.op = 0x12 ∧ w.isVecOp = true ∧ (macOf w.fn).isSome

instance (w : Word) : Decidable (IsMac w) := inferInstanceAs (Decidable (_ ∧ _))

/-- A sum depends on the one before by its residue only. -/
theorem Mac.sum_bmod (o : Mac) (z : ℤ) (s t : BitVec 16) :
    (o.sum (z.bmod (2 ^ 48)) s t).bmod (2 ^ 48) = (o.sum z s t).bmod (2 ^ 48) := by
  unfold Mac.sum
  split_ifs
  · rfl
  · exact Int.bmod_add_bmod

theorem Mac.result_bmod (o : Mac) (z : ℤ) (s t : BitVec 16) :
    o.result (o.sum (z.bmod (2 ^ 48)) s t) = o.result (o.sum z s t) := by
  unfold Mac.result
  rw [o.sum_bmod]

/-- One multiplication keeps the sums, and changes nothing but its register and the accumulator. -/
theorem Sums.Abs.exec {u : Sums} {s : Rsp} (h : u.Abs s) {w : Word} (hw : IsMac w) :
    ∃ s', s.straight w = some s' ∧ (u.exec w).Abs s' ∧ s' = { s with v := s'.v, acc := s'.acc } := by
  obtain ⟨hop, hvec, hmac⟩ := hw
  obtain ⟨o, ho⟩ := Option.isSome_iff_exists.mp hmac
  obtain ⟨op, hvo, hlane⟩ := Mac.lane ho
  have hfit (i : Fin 8) : FitsS 48 (s.lanes i).acc.toInt := by
    change FitsS 48 (s.acc i).toInt
    rw [h.acc i]
    exact fits_bmod _
  have hholds (i : Fin 8) := hlane w.vecE (s.v w.rd i) (s.v w.rt (vtLane w.vecE i)) (s.lanes i)
    (hfit i)
  have hprev (i : Fin 8) : (s.lanes i).acc.toInt = (u.acc i).bmod (2 ^ 48) := h.acc i
  have hnext (i : Fin 8) :
      o.sum (u.acc i) (s.v w.rd i) (s.v w.rt (vtLane w.vecE i)) = u.next o w i := by
    rw [h.v]
    rfl
  refine ⟨_, straight_vec ⟨hop, hvec, rfl⟩ hvo s, ⟨?_, fun i => ?_⟩, ?_⟩
  · have hres : (fun i => (op w.vecE (s.v w.rd i) (s.v w.rt (vtLane w.vecE i)) (s.lanes i)).res) =
        fun i => o.result (u.next o w i) := by
      funext i
      rw [(hholds i).2.1, hprev i, o.result_bmod, hnext]
    simp only [putLanes, Sums.exec, ho, hres, ← h.v]
  · have hacc := (hholds i).1
    rw [hprev i, o.sum_bmod, hnext] at hacc
    simp only [Sums.exec, ho]
    exact hacc
  · have hkeep (i : Fin 8) := (hholds i).2.2
    have hflag {α : Type} (g : Lane → α) (hg : ∀ l a r, g { l with acc := a, res := r } = g l)
        (i : Fin 8) :
        g (op w.vecE (s.v w.rd i) (s.v w.rt (vtLane w.vecE i)) (s.lanes i)) = g (s.lanes i) := by
      rw [hkeep i]
      exact hg _ _ _
    simp only [putLanes, hflag Lane.vcoL (fun _ _ _ => rfl), hflag Lane.vcoH (fun _ _ _ => rfl),
      hflag Lane.vccL (fun _ _ _ => rfl), hflag Lane.vccH (fun _ _ _ => rfl),
      hflag Lane.vce (fun _ _ _ => rfl)]
    rfl

theorem Sums.Abs.run {u : Sums} {s : Rsp} (h : u.Abs s) {ws : List Word}
    (hws : ∀ w ∈ ws, IsMac w) : ∃ s', ws.foldlM straight s = some s' ∧
      (ws.foldl Sums.exec u).Abs s' ∧ s' = { s with v := s'.v, acc := s'.acc } := by
  induction ws generalizing u s with
  | nil => exact ⟨s, rfl, h, rfl⟩
  | cons w ws ih =>
    rw [List.forall_mem_cons] at hws
    obtain ⟨s₁, hs₁, h₁, hk₁⟩ := h.exec hws.1
    obtain ⟨s', hs', h', hk'⟩ := ih h₁ hws.2
    refine ⟨s', ?_, h', ?_⟩
    · rw [List.foldlM_cons, hs₁]
      exact hs'
    · rw [hk', hk₁]

def sums (s : Rsp) : Sums := ⟨s.v, fun i => (s.acc i).toInt⟩

theorem sums_abs {s : Rsp} (h : ∀ i, FitsS 48 (s.acc i).toInt) : s.sums.Abs s :=
  ⟨rfl, fun i => (bmod_of_fits (h i)).symm⟩

/-- What a sequence of multiplications leaves: the registers and the accumulator of sums that
never wrap, the accumulator modulo 2^48 and exact where that is no change. -/
structure Summed (s : Rsp) (ws : List Word) (s' : Rsp) : Prop where
  v : s'.v = (ws.foldl Sums.exec s.sums).v
  acc : ∀ i, (s'.acc i).toInt = ((ws.foldl Sums.exec s.sums).acc i).bmod (2 ^ 48)
  exact : ∀ i, FitsS 48 ((ws.foldl Sums.exec s.sums).acc i) →
    (s'.acc i).toInt = (ws.foldl Sums.exec s.sums).acc i
  frame : s' = { s with v := s'.v, acc := s'.acc }

/-- The accumulator is that of sums over the integers, and so is every result: any sequence of
multiplications, over any registers and their own results, from accumulators of 48 bits. -/
theorem macs_summed {s : Rsp} (h : ∀ i, FitsS 48 (s.acc i).toInt) {ws : List Word}
    (hws : ∀ w ∈ ws, IsMac w) :
    ∃ s', ws.foldlM straight s = some s' ∧ s.Summed ws s' := by
  obtain ⟨s', hs', habs, hframe⟩ := (sums_abs h).run hws
  refine ⟨s', hs', ⟨habs.v, habs.acc, fun i hi => ?_, hframe⟩⟩
  rw [habs.acc i, bmod_of_fits hi]

def withConstants (x y : BitVec 16) : Rsp :=
  { init with v := fun r _ => if r = 1 then x else if r = 2 then y else 0 }

theorem withConstants_fits (x y : BitVec 16) (i : Fin 8) :
    FitsS 48 ((withConstants x y).acc i).toInt := by
  change FitsS 48 (0 : BitVec 64).toInt
  decide

/-- `vmulf $v3, $v1, $v2` and `vmacf $v3, $v1, $v3`: the result of the one is an operand of the
other. -/
theorem macs_summed_fedBack : ∃ s',
    [0x4a0208c0, 0x4a0308c8].foldlM straight (withConstants 0x7fff 0x8000) = some s' ∧
      (withConstants 0x7fff 0x8000).Summed [0x4a0208c0, 0x4a0308c8] s' :=
  macs_summed (withConstants_fits _ _)
    (List.forall_mem_cons.mpr ⟨by decide, List.forall_mem_singleton.mpr (by decide)⟩)

def tap (v : BitVec 5 → Fin 8 → BitVec 16) (i : Fin 8) (z : ℤ) (w : Word) : ℤ :=
  match macOf w.fn with
  | none => z
  | some o => o.sum z (v w.rd i) (v w.rt (vtLane w.vecE i))

def Reads (v v' : BitVec 5 → Fin 8 → BitVec 16) (w : Word) : Prop := v' w.rd = v w.rd ∧ v' w.rt = v w.rt

theorem Sums.exec_acc (u : Sums) {v : BitVec 5 → Fin 8 → BitVec 16} {w : Word}
    (h : Reads v u.v w) (i : Fin 8) : (u.exec w).acc i = tap v i (u.acc i) w := by
  unfold Sums.exec tap
  cases macOf w.fn with
  | none => rfl
  | some o => simp only [Sums.next, h.1, h.2]

theorem Sums.exec_v (u : Sums) {w : Word} {r : BitVec 5} (hr : r ≠ w.sa) :
    (u.exec w).v r = u.v r := by
  unfold Sums.exec
  cases macOf w.fn with
  | none => rfl
  | some o => exact Function.update_of_ne hr _ _

/-- The taps of a filter all read the registers it started with. -/
theorem Sums.foldl_acc {ws : List Word} (hws : ws.Pairwise Spares)
    (v : BitVec 5 → Fin 8 → BitVec 16) (u : Sums) (hv : ∀ w ∈ ws, Reads v u.v w) (i : Fin 8) :
    (ws.foldl Sums.exec u).acc i = ws.foldl (tap v i) (u.acc i) := by
  induction ws generalizing u with
  | nil => rfl
  | cons w ws ih =>
    obtain ⟨hw, hws⟩ := List.pairwise_cons.mp hws
    obtain ⟨hr, hv⟩ := List.forall_mem_cons.mp hv
    rw [List.foldl_cons, List.foldl_cons, ← u.exec_acc hr]
    refine ih hws _ fun x hx => ⟨?_, ?_⟩
    · rw [u.exec_v (hw x hx).1, (hv x hx).1]
    · rw [u.exec_v (hw x hx).2, (hv x hx).2]

theorem Sums.foldl_v {ws : List Word} {r : BitVec 5} (hr : ∀ w ∈ ws, r ≠ w.sa) (u : Sums) :
    (ws.foldl Sums.exec u).v r = u.v r := by
  induction ws generalizing u with
  | nil => rfl
  | cons w ws ih =>
    obtain ⟨hw, hws⟩ := List.forall_mem_cons.mp hr
    rw [List.foldl_cons, ih hws, u.exec_v hw]

def macBound (fn : BitVec 6) : ℤ := if fn = 0x07 ∨ fn = 0x0f then 2 ^ 46 else 2 ^ 31 + 2 ^ 15

theorem abs_term_le {fn : BitVec 6} {o : Mac} (ho : macOf fn = some o) (s t : BitVec 16) :
    |o.term s t| ≤ macBound fn := by
  have hss := abs_le.mp (abs_mul_le (abs_toInt_le s) (abs_toInt_le t))
  have hsm := abs_le.mp (abs_mul_le (abs_toInt_le s) (abs_toNat_le t))
  have hms := abs_le.mp (abs_mul_le (abs_toNat_le s) (abs_toInt_le t))
  have huu := abs_le.mp (abs_mul_le (abs_toNat_le s) (abs_toNat_le t))
  unfold macOf at ho
  split at ho
  case h_10 => cases ho
  all_goals
    obtain rfl := Option.some.inj ho
    rw [abs_le]
    simp only [macBound]
    constructor <;> simp <;> omega

def tapBound (b : ℤ) (w : Word) : ℤ :=
  match macOf w.fn with
  | none => b
  | some o => (if o.starts then 0 else b) + macBound w.fn

theorem abs_tap_le {z b : ℤ} (h : |z| ≤ b) (v : BitVec 5 → Fin 8 → BitVec 16) (i : Fin 8)
    (w : Word) : |tap v i z w| ≤ tapBound b w := by
  unfold tap tapBound
  cases ho : macOf w.fn with
  | none => exact h
  | some o =>
    have ht := abs_term_le ho (v w.rd i) (v w.rt (vtLane w.vecE i))
    simp only [Mac.sum]
    split_ifs
    · rw [zero_add, zero_add]
      exact ht
    · exact (abs_add_le _ _).trans (add_le_add h ht)

theorem abs_taps_le {ws : List Word} {z b : ℤ} (h : |z| ≤ b) (v : BitVec 5 → Fin 8 → BitVec 16)
    (i : Fin 8) : |ws.foldl (tap v i) z| ≤ ws.foldl tapBound b := by
  induction ws generalizing z b with
  | nil => exact h
  | cons w ws ih => exact ih (abs_tap_le h v i w)

/-- What is left in lane `i` by a sequence that ends in `w`: the sum of its taps. -/
structure Filtered (s : Rsp) (ws : List Word) (w : Word) (o : Mac) (s' : Rsp) (i : Fin 8) :
    Prop where
  acc : (s'.acc i).toInt = ((ws ++ [w]).foldl (tap s.v i) (s.acc i).toInt).bmod (2 ^ 48)
  result : s'.v w.sa i = o.result ((ws ++ [w]).foldl (tap s.v i) (s.acc i).toInt)
  /-- Short enough after the last start, nothing wraps. -/
  exact : (ws ++ [w]).foldl tapBound (2 ^ 47) < 2 ^ 47 →
    (s'.acc i).toInt = (ws ++ [w]).foldl (tap s.v i) (s.acc i).toInt ∧
      s'.v w.sa i = (satS 32 ((ws ++ [w]).foldl (tap s.v i) (s.acc i).toInt)).extractLsb'
        (if o.high then 16 else 0) 16

theorem fits_taps {s : Rsp} (h : ∀ i, FitsS 48 (s.acc i).toInt) {ws : List Word}
    (hlt : ws.foldl tapBound (2 ^ 47) < 2 ^ 47) (i : Fin 8) :
    FitsS 48 (ws.foldl (tap s.v i) (s.acc i).toInt) := by
  have hacc : |(s.acc i).toInt| ≤ 2 ^ 47 := by
    obtain ⟨hl, hr⟩ := h i
    rw [abs_le]
    constructor <;> omega
  have habs := abs_le.mp ((abs_taps_le hacc s.v i).trans hlt.le)
  have hub := (le_abs_self _).trans_lt ((abs_taps_le hacc s.v i).trans_lt hlt)
  constructor <;> omega

/-- A filter: multiplications that write no operand of a later one. -/
theorem macs_filter {s : Rsp} (h : ∀ i, FitsS 48 (s.acc i).toInt) {ws : List Word} {w : Word}
    (hws : ∀ x ∈ ws ++ [w], IsMac x) (hsp : (ws ++ [w]).Pairwise Spares) {o : Mac}
    (ho : macOf w.fn = some o) :
    ∃ s', (ws ++ [w]).foldlM straight s = some s' ∧ (∀ i, s.Filtered ws w o s' i) ∧
      (∀ r, (∀ x ∈ ws ++ [w], r ≠ x.sa) → s'.v r = s.v r) ∧
      s' = { s with v := s'.v, acc := s'.acc } := by
  obtain ⟨s', hs', habs, hframe⟩ := (sums_abs h).run hws
  have hsum (i : Fin 8) := Sums.foldl_acc hsp s.v s.sums (fun _ _ => ⟨rfl, rfl⟩) i
  have hres (i : Fin 8) : s'.v w.sa i =
      o.result ((ws ++ [w]).foldl (tap s.v i) (s.acc i).toInt) := by
    change _ = o.result ((ws ++ [w]).foldl (tap s.v i) (s.sums.acc i))
    rw [habs.v, ← hsum i, List.foldl_concat]
    simp only [Sums.exec, ho, Function.update_self]
  refine ⟨s', hs', fun i => ⟨by rw [habs.acc i, hsum i]; rfl, hres i, fun hlt => ?_⟩,
    fun r hr => ?_, hframe⟩
  · have hfit := bmod_of_fits (fits_taps h hlt i)
    refine ⟨?_, ?_⟩
    · rw [habs.acc i, hsum i]
      exact hfit
    · rw [hres i, Mac.result, hfit]
  · rw [habs.v, Sums.foldl_v hr]
    rfl

/-- Two taps of the same two constants, whose result saturates. -/
theorem macs_filter_two : ∃ s',
    [0x4a0208c0, 0x4a0208c8].foldlM straight (withConstants 0x7fff 0x8000) = some s' ∧
      (s'.acc 0).toInt = -4294803456 ∧ s'.v 3 0 = 0x8000 := by
  have hmacs : ∀ x ∈ [(0x4a0208c0 : Word)] ++ [0x4a0208c8], IsMac x :=
    List.forall_mem_cons.mpr ⟨by decide, List.forall_mem_singleton.mpr (by decide)⟩
  obtain ⟨s', hs', hf, -⟩ := macs_filter (withConstants_fits 0x7fff 0x8000) hmacs (by decide) rfl
  obtain ⟨hacc, hres⟩ := (hf 0).exact (by decide)
  exact ⟨s', hs', hacc.trans (by decide), hres.trans (by decide)⟩

end RspBt.Rsp
