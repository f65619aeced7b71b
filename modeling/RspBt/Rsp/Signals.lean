import RspBt.Rsp.Invariant

namespace RspBt

open Lib

namespace Rsp

def sig (status : Word) (i : ℕ) : Bool := status.getLsbD (7 + i)

/-- What a write asks of SIG `i`; a pair with both bits sets it. -/
def asks (i : ℕ) (x : Word) : Option Bool :=
  if x.getLsbD (10 + 2 * i) then some true else if x.getLsbD (9 + 2 * i) then some false else none

def sigBit (i : ℕ) : Word := BitVec.ofNat 32 (1 <<< (7 + i))

theorem getLsbD_sigBit {i : ℕ} (hi : i < 8) (j : ℕ) :
    (sigBit i).getLsbD j = decide (7 + i = j) := by
  rw [sigBit, BitVec.getLsbD_ofNat, Nat.one_shiftLeft, Nat.testBit_two_pow]
  by_cases hj : 7 + i = j
  · simp [hj, (by omega : j < 32)]
  · simp [hj]

theorem statusSignal_eq (x status : Word) (i : ℕ) : statusSignal x status i =
    let status := if x.getLsbD (9 + 2 * i) then status &&& ~~~sigBit i else status
    if x.getLsbD (10 + 2 * i) then status ||| sigBit i else status := rfl

theorem getLsbD_statusSignal (x status : Word) {i : ℕ} (hi : i < 8) (j : ℕ) :
    (statusSignal x status i).getLsbD j =
      if 7 + i = j then (asks i x).getD (sig status i) else status.getLsbD j := by
  have hset (y : Word) : (y ||| sigBit i).getLsbD j =
      if 7 + i = j then true else y.getLsbD j := by
    rw [BitVec.getLsbD_or, getLsbD_sigBit hi]
    by_cases hj : 7 + i = j <;> simp [hj]
  have hclear : (status &&& ~~~sigBit i).getLsbD j =
      if 7 + i = j then false else status.getLsbD j := by
    rw [BitVec.getLsbD_and, BitVec.getLsbD_not, getLsbD_sigBit hi]
    by_cases hj : 7 + i = j
    · simp [hj]
    · by_cases hlt : j < 32
      · simp [hj, hlt]
      · simp [BitVec.getLsbD_of_ge _ _ (Nat.le_of_not_lt hlt), hj]
  have hsame : status.getLsbD j = if 7 + i = j then sig status i else status.getLsbD j := by
    split_ifs with hj
    · rw [sig, hj]
    · rfl
  by_cases hs : x.getLsbD (10 + 2 * i)
  · simp only [statusSignal_eq, asks, hs, if_true, Option.getD_some, hset]
    by_cases hj : 7 + i = j
    · rw [if_pos hj, if_pos hj]
    · rw [if_neg hj, if_neg hj]
      split_ifs
      · rw [hclear, if_neg hj]
      · rfl
  · by_cases hc : x.getLsbD (9 + 2 * i)
    · simp only [statusSignal_eq, asks, hs, hc, if_true, if_false, Bool.false_eq_true,
        Option.getD_some, hclear]
    · simp only [statusSignal_eq, asks, hs, hc, if_false, Bool.false_eq_true, Option.getD_none]
      exact hsame

theorem getLsbD_foldl_statusSignal (x : Word) {l : List ℕ} (hl : ∀ i ∈ l, i < 8) (hn : l.Nodup)
    (status : Word) (j : ℕ) : (l.foldl (statusSignal x) status).getLsbD j =
      if 7 ≤ j ∧ j - 7 ∈ l then (asks (j - 7) x).getD (status.getLsbD j) else status.getLsbD j := by
  induction l generalizing status with
  | nil => simp
  | cons i l ih =>
    obtain ⟨hi, hl⟩ := List.forall_mem_cons.mp hl
    obtain ⟨hnot, hn⟩ := List.nodup_cons.mp hn
    rw [List.foldl_cons, ih hl hn, getLsbD_statusSignal x status hi]
    by_cases hj : 7 + i = j
    · obtain rfl : i = j - 7 := by omega
      have h7 : 7 ≤ j := by omega
      simp only [h7, hnot, List.mem_cons_self, and_true, and_false, if_true, if_false, hj, sig]
    · have hne : 7 ≤ j → j - 7 ≠ i := by omega
      by_cases h7 : 7 ≤ j
      · simp only [h7, hj, hne h7, List.mem_cons, false_or, true_and, if_false]
      · simp only [h7, hj, false_and, if_false]

def writeStatus (status x : Word) : Word := (List.range 8).foldl (statusSignal x) status

theorem sig_writeStatus (status x : Word) {i : ℕ} (hi : i < 8) :
    sig (writeStatus status x) i = (asks i x).getD (sig status i) := by
  have h := getLsbD_foldl_statusSignal x (fun i => List.mem_range.mp) List.nodup_range status (7 + i)
  rw [if_pos ⟨by omega, List.mem_range.mpr (by omega)⟩, Nat.add_sub_cancel_left] at h
  exact h

theorem getLsbD_writeStatus (status x : Word) {j : ℕ} (hj : j < 7 ∨ 15 ≤ j) :
    (writeStatus status x).getLsbD j = status.getLsbD j := by
  have h := getLsbD_foldl_statusSignal x (fun i => List.mem_range.mp) List.nodup_range status j
  rw [if_neg] at h
  · exact h
  · rintro ⟨h7, hmem⟩
    have hlt := List.mem_range.mp hmem
    omega

/-- SIG `i` after the writes, from what it was: the last of them that names it decides. -/
def lastAsked (i : ℕ) (xs : List Word) (b : Bool) : Bool := ((xs.filterMap (asks i)).getLast?).getD b

theorem sig_foldl_writeStatus {i : ℕ} (hi : i < 8) (xs : List Word) (status : Word) :
    sig (xs.foldl writeStatus status) i = lastAsked i xs (sig status i) := by
  induction xs using List.reverseRecOn with
  | nil => rfl
  | append_singleton xs x ih =>
    rw [List.foldl_concat, sig_writeStatus _ _ hi, ih, lastAsked, lastAsked, List.filterMap_append,
      List.getLast?_append]
    cases hx : asks i x <;> simp [hx]

theorem getLsbD_foldl_writeStatus {j : ℕ} (hj : j < 7 ∨ 15 ≤ j) (xs : List Word) (status : Word) :
    (xs.foldl writeStatus status).getLsbD j = status.getLsbD j := by
  induction xs generalizing status with
  | nil => rfl
  | cons x xs ih => rw [List.foldl_cons, ih, getLsbD_writeStatus _ _ hj]

inductive Side | cpu | rsp
deriving DecidableEq

def writesOf (side : Side) (evs : List (Side × Word)) : List Word :=
  (evs.filter fun ev => ev.1 = side).map Prod.snd

/-- A signal that the other side never names is as this side alone leaves it. -/
theorem lastAsked_writesOf {i : ℕ} {evs : List (Side × Word)} {side : Side}
    (h : ∀ ev ∈ evs, ev.1 ≠ side → asks i ev.2 = none) (b : Bool) :
    lastAsked i (evs.map Prod.snd) b = lastAsked i (writesOf side evs) b := by
  have hsame : (evs.map Prod.snd).filterMap (asks i) = (writesOf side evs).filterMap (asks i) := by
    induction evs with
    | nil => rfl
    | cons ev evs ih =>
      obtain ⟨hev, hevs⟩ := List.forall_mem_cons.mp h
      have hrest := ih hevs
      by_cases hside : ev.1 = side
      · have hw : writesOf side (ev :: evs) = ev.2 :: writesOf side evs := by
          simp [writesOf, hside]
        rw [hw, List.map_cons, List.filterMap_cons, List.filterMap_cons, hrest]
      · have hw : writesOf side (ev :: evs) = writesOf side evs := by
          simp [writesOf, hside]
        rw [hw, List.map_cons, List.filterMap_cons, hev hside]
        exact hrest
  rw [lastAsked, hsame, lastAsked]

def statusWrites (s : Rsp) (w : Word) : List Word :=
  if w.op = 0x10 ∧ w.rs = 4 ∧ w.rd = 4 then [s.r w.rt] else []

/-- Of the COP0 writes the one to SP_STATUS changes it, and no other instruction does. -/
theorem spStatus_switch {s : Rsp} {nextPc w : Word} {f : Flow} (h : s.switch nextPc w = some f) :
    f.s.spStatus = (s.statusWrites w).foldl writeStatus s.spStatus := by
  by_cases hc : w.op = 0x10 ∧ w.rs = 4
  · have hcop : s.straight w = s.mtc0 w.rd (s.r w.rt) := by
      have hst : s.straight w = s.cop0 w := by
        simp only [straight, hc.1]
        rfl
      rw [hst, cop0, if_neg (by simp [hc.2]), if_pos hc.2]
    have hsw : s.switch nextPc w =
        (s.straight w).map fun s' => ⟨s', (nextPc + 4) &&& 0xffc, false⟩ := by
      simp only [switch, hc.1]
      rfl
    rw [hsw, hcop] at h
    obtain ⟨s', hm, rfl⟩ := Option.map_eq_some_iff.mp h
    unfold mtc0 at hm
    split at hm
    case h_15 => cases hm
    all_goals obtain rfl := Option.some.inj hm
    case h_5 hrd =>
      have hw : s.statusWrites w = [s.r w.rt] := if_pos ⟨hc.1, hc.2, hrd⟩
      rw [hw]
      rfl
    case h_3 hrd | h_4 hrd =>
      rw [(s.dma_fields _ _).2.2]
      simp [statusWrites, hrd]
    all_goals
      rename_i hrd
      simp [statusWrites, hrd]
  · have hno : s.statusWrites w = [] := if_neg fun h => hc ⟨h.1, h.2.1⟩
    rw [hno, List.foldl_nil]
    have heff := effect_switch h
    generalize f.s = s' at heff
    cases heff with
    | flags which x =>
      unfold setVflags
      split_ifs <;> rfl
    | cop0 hop hrs _ => exact absurd ⟨hop, hrs⟩ hc
    | reg _ _ | vec _ | lanes _ | store _ _ _ => rfl

end Rsp

namespace RspT

inductive TurnWrites : RspT × Word → List Word → RspT × Word → Prop
  | nil (st : RspT × Word) : TurnWrites st [] st
  | turn {st st' st'' : RspT × Word} {xs : List Word} (h : turn st = some (.inl st'))
      (hs : TurnWrites st' xs st'') : TurnWrites st
        (st.1.core.statusWrites (fetch st.1.core.imem st.1.pc) ++ xs) st''

/-- A history with the status writes of both sides. -/
inductive Exchange (c₀ : RspT) : List (Rsp.Side × Word) → RspT → Prop
  | boot : Exchange c₀ [] c₀
  | dma {evs : List (Rsp.Side × Word)} {c : RspT} (h : Exchange c₀ evs c) (x : Word) (toRsp : Bool) :
      Exchange c₀ evs { c with core := c.core.dma x toRsp }
  | status {evs : List (Rsp.Side × Word)} {c : RspT} (h : Exchange c₀ evs c) (x : Word) :
      Exchange c₀ (evs ++ [(.cpu, x)]) { c with core := c.core.applyStatusWrite x }
  | run {evs : List (Rsp.Side × Word)} {c c' : RspT} (h : Exchange c₀ evs c) {startPc : Word}
      {xs : List Word} {st : RspT × Word} (hs : TurnWrites (c.start startPc) xs st)
      (hend : turn st = some (.inr c')) : Exchange c₀ (evs ++ xs.map fun x => (.rsp, x)) c'

theorem TurnWrites.spStatus {st st' : RspT × Word} {xs : List Word} (h : TurnWrites st xs st') :
    st'.1.core.spStatus = xs.foldl Rsp.writeStatus st.1.core.spStatus := by
  induction h with
  | nil => rfl
  | @turn st _ _ xs hb _ ih =>
    rcases turn_cases hb with ⟨f, hf, heq⟩ | heq
    · obtain rfl := Sum.inl.inj heq
      rw [ih, List.foldl_append, ← Rsp.spStatus_switch hf]
      rfl
    · cases heq

theorem Exchange.spStatus {c₀ c : RspT} {evs : List (Rsp.Side × Word)} (h : Exchange c₀ evs c) :
    c.core.spStatus = (evs.map Prod.snd).foldl Rsp.writeStatus c₀.core.spStatus := by
  induction h with
  | boot => rfl
  | dma _ x toRsp ih => rw [(Rsp.dma_fields _ x toRsp).2.2, ih]
  | status _ x ih =>
    rw [List.map_append, List.foldl_append, ← ih]
    rfl
  | @run evs c c' _ startPc xs st hs hend ih =>
    have hmap : (xs.map fun x => ((.rsp, x) : Rsp.Side × Word)).map Prod.snd = xs := by
      simp [Function.comp_def]
    rw [List.map_append, hmap, List.foldl_append, ← ih]
    rcases turn_cases hend with ⟨f, -, heq⟩ | heq
    · cases heq
    · obtain rfl := Sum.inr.inj heq
      exact hs.spStatus

/-- Over a whole exchange a signal is as the last write of either side that names it left it; one
that only one side names is as that side's writes alone leave it, whatever the other writes
between them; and the bits that are no signal never move. -/
theorem exchange_signals {c₀ c : RspT} {evs : List (Rsp.Side × Word)} (h : Exchange c₀ evs c) :
    (∀ i < 8, Rsp.sig c.core.spStatus i =
      Rsp.lastAsked i (evs.map Prod.snd) (Rsp.sig c₀.core.spStatus i)) ∧
    (∀ i < 8, ∀ side, (∀ ev ∈ evs, ev.1 ≠ side → Rsp.asks i ev.2 = none) →
      Rsp.sig c.core.spStatus i =
        Rsp.lastAsked i (Rsp.writesOf side evs) (Rsp.sig c₀.core.spStatus i)) ∧
    ∀ j, j < 7 ∨ 15 ≤ j → c.core.spStatus.getLsbD j = c₀.core.spStatus.getLsbD j := by
  have hlast {i : ℕ} (hi : i < 8) : Rsp.sig c.core.spStatus i =
      Rsp.lastAsked i (evs.map Prod.snd) (Rsp.sig c₀.core.spStatus i) := by
    rw [h.spStatus, Rsp.sig_foldl_writeStatus hi]
  refine ⟨fun i hi => hlast hi, fun i hi side hother => ?_, fun j hj => ?_⟩
  · rw [hlast hi, Rsp.lastAsked_writesOf hother]
  · rw [h.spStatus, Rsp.getLsbD_foldl_writeStatus hj]

/-- `ori $1, $0, 0x1000`, `mtc0 $1, SP_STATUS` and a BREAK: the microcode sets SIG1. -/
def signalling : RspT :=
  ⟨Rsp.withCode [0x34, 0x01, 0x10, 0x00, 0x40, 0x81, 0x20, 0x00, 0x00, 0x00, 0x00, 0x0d], 0, true, 0⟩

namespace signalling

/-- Once the CPU has set SIG0, and after each of the two instructions. -/
def told : Rsp := signalling.core.applyStatusWrite 0x400

def ready : Rsp := (told.setR 1 0x1000).zeroR0

def answered : Rsp := (ready.applyStatusWrite 0x1000).zeroR0

theorem turn_told : turn (⟨told, 0, false, 0⟩, 4) = some (.inl (⟨ready, 4, false, 1⟩, 8)) := by
  have hsw : told.switch 4 (fetch told.imem 0) = some ⟨told.setR 1 0x1000, 8, false⟩ := rfl
  simp only [turn, hsw, Bool.false_eq_true, if_false]
  exact if_neg (by decide)

theorem turn_ready :
    turn (⟨ready, 4, false, 1⟩, 8) = some (.inl (⟨answered, 8, false, 2⟩, 12)) := by
  have hsw : ready.switch 8 (fetch ready.imem 4) =
      some ⟨ready.applyStatusWrite 0x1000, 12, false⟩ := rfl
  simp only [turn, hsw, Bool.false_eq_true, if_false]
  exact if_neg (by decide)

theorem turn_answered : turn (⟨answered, 8, false, 2⟩, 12) =
    some (.inl (⟨answered.zeroR0, 12, true, 3⟩, 16)) := by
  have hsw : answered.switch 12 (fetch answered.imem 8) = some ⟨answered, 16, true⟩ := rfl
  simp only [turn, hsw, Bool.false_eq_true, if_false]
  exact if_neg (by decide)

end signalling

/-- The CPU sets SIG0, the microcode runs, and the CPU clears SIG0. -/
theorem exchange_signalling : ∃ c,
    Exchange signalling [(.cpu, 0x400), (.rsp, 0x1000), (.cpu, 0x200)] c := by
  have hset : Exchange signalling [(.cpu, 0x400)] ⟨signalling.told, 0, true, 0⟩ :=
    Exchange.boot.status 0x400
  have hwrites : TurnWrites (start ⟨signalling.told, 0, true, 0⟩ 0) [0x1000]
      (⟨signalling.answered.zeroR0, 12, true, 3⟩, 16) :=
    .turn signalling.turn_told (.turn signalling.turn_ready (.turn signalling.turn_answered (.nil _)))
  exact ⟨_, (hset.run hwrites rfl).status 0x200⟩

theorem exchange_signals_signalling : ∃ c,
    Exchange signalling [(.cpu, 0x400), (.rsp, 0x1000), (.cpu, 0x200)] c ∧
      Rsp.sig c.core.spStatus 0 = false ∧ Rsp.sig c.core.spStatus 1 = true := by
  obtain ⟨c, hc⟩ := exchange_signalling
  obtain ⟨hlast, howned, -⟩ := exchange_signals hc
  refine ⟨c, hc, ?_, ?_⟩
  · rw [howned 0 (by decide) .cpu (by decide)]
    decide
  · rw [hlast 1 (by decide)]
    decide

end RspT

end RspBt
