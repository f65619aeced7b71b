import RspBt.Rsp.Run

namespace RspBt.Rsp

def lowFlags (s : Rsp) (which : BitVec 5) : Lib.Mask 8 :=
  if which = 0 then s.vcoL else if which = 1 then s.vccL else s.vce

def highFlags (s : Rsp) (which : BitVec 5) : Lib.Mask 8 := if which = 0 then s.vcoH else s.vccH

def flagBit (b : Bool) (i : ℕ) : BitVec 16 := ((if b then 1 <<< i else 0 : ℕ) : BitVec 16)

theorem getLsbD_flagBit (b : Bool) {i : ℕ} (hi : i < 16) (j : ℕ) :
    (flagBit b i).getLsbD j = (b && decide (j = i)) := by
  cases b with
  | false => exact BitVec.getLsbD_zero
  | true =>
    have hcast : flagBit true i = BitVec.ofNat 16 (2 ^ i) := by
      rw [flagBit, if_pos rfl, Nat.one_shiftLeft]
      rfl
    rw [hcast, BitVec.getLsbD_ofNat, Nat.testBit_two_pow, Bool.true_and]
    by_cases h : j = i
    · simp [h, hi]
    · simp [h, Ne.symm h]

/-- A loop that or-s into its result sets a bit where some turn does. -/
theorem getLsbD_foldl_or {ι : Type*} (g : ι → BitVec 16) (l : List ι) (x : BitVec 16) (j : ℕ) :
    (l.foldl (fun v i => v ||| g i) x).getLsbD j =
      (x.getLsbD j || l.any fun i => (g i).getLsbD j) := by
  induction l generalizing x with
  | nil => simp
  | cons i l ih => rw [List.foldl_cons, ih, BitVec.getLsbD_or, List.any_cons, Bool.or_assoc]

/-- The loop packs the low half, and the high half of any index but that of VCE. -/
theorem getVflags_eq (s : Rsp) (which : BitVec 5) :
    s.getVflags which = (List.finRange 8).foldl
      (fun v i => v ||| (flagBit (s.lowFlags which i) i.val |||
        flagBit (decide (which ≠ 2) && s.highFlags which i) (i.val + 8))) 0 := by
  -- VCE: the second or of each turn is left out
  by_cases hw : which = 2
  · have hnone : ∀ i : ℕ, flagBit false i = 0#16 := fun i => rfl
    simp only [hw, ne_eq, not_true, decide_false, Bool.false_and, hnone, BitVec.or_zero]
    simp only [getVflags, ne_eq, not_true, if_false]
    rfl
  · simp only [hw, ne_eq, not_false_eq_true, decide_true, Bool.true_and, ← BitVec.or_assoc]
    simp only [getVflags, hw, ne_eq, not_false_eq_true, if_true]
    rfl

theorem getLsbD_getVflags (s : Rsp) (which : BitVec 5) (j : ℕ) :
    (s.getVflags which).getLsbD j = true ↔ ∃ i : Fin 8, s.lowFlags which i ∧ j = i.val ∨
      (which ≠ 2 ∧ s.highFlags which i) ∧ j = i.val + 8 := by
  have hzero : (0 : BitVec 16).getLsbD j = false := BitVec.getLsbD_zero
  rw [getVflags_eq, getLsbD_foldl_or, hzero, Bool.false_or, List.any_eq_true]
  apply exists_congr
  intro i
  rw [BitVec.getLsbD_or, getLsbD_flagBit _ (by omega), getLsbD_flagBit _ (by omega)]
  simp only [List.mem_finRange, true_and, Bool.or_eq_true, Bool.and_eq_true, decide_eq_true_eq]

theorem getVflags_low (s : Rsp) (which : BitVec 5) (i : Fin 8) :
    (s.getVflags which).getLsbD i.val = s.lowFlags which i := by
  rw [Bool.eq_iff_iff, getLsbD_getVflags]
  constructor
  · rintro ⟨l, ⟨h, hl⟩ | ⟨h, hl⟩⟩
    · rwa [Fin.ext hl]
    · omega
  · exact fun h => ⟨i, Or.inl ⟨h, rfl⟩⟩

theorem getVflags_high (s : Rsp) (which : BitVec 5) (i : Fin 8) :
    (s.getVflags which).getLsbD (i.val + 8) = (decide (which ≠ 2) && s.highFlags which i) := by
  rw [Bool.eq_iff_iff, getLsbD_getVflags, Bool.and_eq_true, decide_eq_true_eq]
  constructor
  · rintro ⟨l, ⟨h, hl⟩ | ⟨h, hl⟩⟩
    · omega
    · rwa [show i = l by omega]
  · exact fun h => ⟨i, Or.inr ⟨h, rfl⟩⟩
theorem flagWord_ext {x y : BitVec 16} (hlow : ∀ i : Fin 8, x.getLsbD i.val = y.getLsbD i.val)
    (hhigh : ∀ i : Fin 8, x.getLsbD (i.val + 8) = y.getLsbD (i.val + 8)) : x = y := by
  apply BitVec.eq_of_getLsbD_eq
  intro j hj
  by_cases h : j < 8
  · exact hlow ⟨j, h⟩
  · have h8 := hhigh ⟨j - 8, by omega⟩
    rwa [show j - 8 + 8 = j by omega] at h8

/-- What an index keeps of the value written: VCE has no high half. -/
def keptFlags (which : BitVec 5) (x : BitVec 16) : BitVec 16 :=
  if which = 2 then (x.setWidth 8).setWidth 16 else x

theorem setVflags_low (s : Rsp) (which : BitVec 5) (x : BitVec 16) (i : Fin 8) :
    (s.setVflags which x).lowFlags which i = x.getLsbD i.val := by
  simp only [setVflags, lowFlags]
  split_ifs <;> rfl

theorem setVflags_high (s : Rsp) {which : BitVec 5} (h : which ≠ 2) (x : BitVec 16) (i : Fin 8) :
    (s.setVflags which x).highFlags which i = x.getLsbD (i.val + 8) := by
  simp only [setVflags, highFlags, h, ne_eq, not_false_eq_true, if_true]
  split_ifs <;> rfl

theorem getVflags_setVflags (s : Rsp) (which : BitVec 5) (x : BitVec 16) :
    (s.setVflags which x).getVflags which = keptFlags which x := by
  apply flagWord_ext
  · intro i
    rw [getVflags_low, setVflags_low, keptFlags]
    split_ifs
    · simp [i.isLt, show i.val < 16 by omega]
    · rfl
  · intro i
    rw [getVflags_high, keptFlags]
    split_ifs with h
    · simp [h]
    · rw [setVflags_high s h, decide_eq_true h, Bool.true_and]

theorem setVflags_of_eq {s : Rsp} {which : BitVec 5} {x : BitVec 16}
    (hlow : ∀ i : Fin 8, x.getLsbD i.val = s.lowFlags which i)
    (hhigh : which ≠ 2 → ∀ i : Fin 8, x.getLsbD (i.val + 8) = s.highFlags which i) :
    s.setVflags which x = s := by
  have hlow' : (fun i : Fin 8 => x.getLsbD i.val) = s.lowFlags which := funext hlow
  by_cases hw : which = 2
  · simp only [setVflags, hlow', hw, ne_eq, not_true, if_false]
    rfl
  · have hhigh' : (fun i : Fin 8 => x.getLsbD (i.val + 8)) = s.highFlags which :=
      funext (hhigh hw)
    simp only [setVflags, hlow', hhigh', hw, ne_eq, not_false_eq_true, if_true, lowFlags, highFlags]
    split_ifs <;> rfl

theorem setVflags_getVflags (s : Rsp) (which : BitVec 5) :
    s.setVflags which (s.getVflags which) = s := by
  apply setVflags_of_eq (s.getVflags_low which)
  intro h i
  rw [getVflags_high, decide_eq_true h, Bool.true_and]

def exec (s : Rsp) (w : Word) : Option Rsp := (s.straight w).map zeroR0

/-- A COP2 move with `r[rt]` as its scalar side: 2 is cfc2, 6 is ctc2. -/
structure IsMove (w : Word) (kind : BitVec 5) : Prop where
  op : w.op = 0x12
  rs : w.rs = kind
  rt : w.rt ≠ 0

theorem isVecOp_eq (w : Word) : w.isVecOp = w.rs.getLsbD 4 := by
  rw [Word.isVecOp, Word.rs, BitVec.getLsbD_extractLsb']
  rfl

theorem IsMove.straight {w : Word} {kind : BitVec 5} (h : IsMove w kind)
    (hkind : kind.getLsbD 4 = false) (s : Rsp) : s.straight w = s.cop2Move w := by
  have hmove : w.isVecOp = false := by rw [isVecOp_eq, h.rs, hkind]
  simp only [Rsp.straight, h.op]
  exact if_pos hmove

theorem exec_cfc2 {w : Word} (h : IsMove w 2) (s : Rsp) :
    s.exec w = some (s.setR w.rt ((s.getVflags w.rd).signExtend 32)).zeroR0 := by
  rw [exec, h.straight (by decide)]
  simp only [cop2Move, h.rs]
  rfl

theorem exec_ctc2 {w : Word} (h : IsMove w 6) (s : Rsp) :
    s.exec w = some (s.setVflags w.rd ((s.r w.rt).setWidth 16)).zeroR0 := by
  rw [exec, h.straight (by decide)]
  simp only [cop2Move, h.rs]
  rfl

def SameVco (s s' : Rsp) : Prop := s'.vcoL = s.vcoL ∧ s'.vcoH = s.vcoH
def SameVcc (s s' : Rsp) : Prop := s'.vccL = s.vccL ∧ s'.vccH = s.vccH
def SameVce (s s' : Rsp) : Prop := s'.vce = s.vce

/-- The two moves are inverse, and the ctc2 `c` touches the register it names. -/
structure FlagMoves (s : Rsp) (c : Word) : Prop where
  readback : c.rd.toNat ≤ 2 → ∀ f, IsMove f 2 → f.rd = c.rd →
    ∃ s', (s.exec c).bind (fun t => t.exec f) = some s' ∧
      s'.r f.rt = (keptFlags c.rd ((s.r c.rt).setWidth 16)).signExtend 32
  restore : ∀ f, IsMove f 2 → f.rd = c.rd → f.rt = c.rt →
    ∃ s', (s.exec f).bind (fun t => t.exec c) = some s' ∧
      SameVco s s' ∧ SameVcc s s' ∧ SameVce s s'
  vco : c.rd = 0 → ∃ s', s.exec c = some s' ∧ SameVcc s s' ∧ SameVce s s'
  vcc : c.rd = 1 → ∃ s', s.exec c = some s' ∧ SameVco s s' ∧ SameVce s s'
  vce : c.rd = 2 → ∃ s', s.exec c = some s' ∧ SameVco s s' ∧ SameVcc s s'
  other : 2 < c.rd.toNat → ∃ s', s.exec c = some s' ∧ SameVco s s' ∧ SameVcc s s'

theorem readback_moves {c f : Word} (hc : IsMove c 6) (hf : IsMove f 2) (hrd : f.rd = c.rd)
    (s : Rsp) : ∃ s', (s.exec c).bind (fun t => t.exec f) = some s' ∧
      s'.r f.rt = (keptFlags c.rd ((s.r c.rt).setWidth 16)).signExtend 32 := by
  refine ⟨_, by rw [exec_ctc2 hc, Option.bind_some, exec_cfc2 hf], ?_⟩
  have hkept : ((s.setVflags c.rd ((s.r c.rt).setWidth 16)).zeroR0).getVflags f.rd =
      keptFlags c.rd ((s.r c.rt).setWidth 16) := by
    rw [hrd]
    exact s.getVflags_setVflags c.rd _
  rw [hkept]
  exact (Function.update_of_ne hf.rt _ _).trans (Function.update_self ..)

theorem setWidth_signExtend (x : BitVec 16) : (x.signExtend 32).setWidth 16 = x := by
  apply BitVec.eq_of_getLsbD_eq
  intro j hj
  have hj' : j < 32 := by omega
  simp only [BitVec.getLsbD_setWidth, BitVec.getLsbD_signExtend, hj, hj', decide_true,
    Bool.true_and, if_true]

theorem restore_moves {c f : Word} (hc : IsMove c 6) (hf : IsMove f 2) (hrd : f.rd = c.rd)
    (hrt : f.rt = c.rt) (s : Rsp) : ∃ s', (s.exec f).bind (fun t => t.exec c) = some s' ∧
      SameVco s s' ∧ SameVcc s s' ∧ SameVce s s' := by
  let t := (s.setR c.rt ((s.getVflags c.rd).signExtend 32)).zeroR0
  have hexec : s.exec f = some t := by rw [exec_cfc2 hf, hrd, hrt]
  have hread : (t.r c.rt).setWidth 16 = t.getVflags c.rd := by
    have hrt' : t.r c.rt = (s.getVflags c.rd).signExtend 32 :=
      (Function.update_of_ne hc.rt _ _).trans (Function.update_self ..)
    rw [hrt', setWidth_signExtend]
    rfl
  refine ⟨t.zeroR0, ?_, ⟨rfl, rfl⟩, ⟨rfl, rfl⟩, rfl⟩
  rw [hexec, Option.bind_some, exec_ctc2 hc, hread, setVflags_getVflags]

/-- An index past the three writes VCE and the high half of VCC. -/
theorem setVflags_other (s : Rsp) {which : BitVec 5} (h : 2 < which.toNat) (x : BitVec 16) :
    s.setVflags which x =
      { s with vce := fun i => x.getLsbD i.val, vccH := fun i => x.getLsbD (i.val + 8) } := by
  have hne : which ≠ 0 ∧ which ≠ 1 ∧ which ≠ 2 := by
    refine ⟨?_, ?_, ?_⟩ <;> (rintro rfl; exact absurd h (by decide))
  simp only [setVflags, hne.1, hne.2.1, hne.2.2, ne_eq, not_false_eq_true, if_true, if_false]

theorem other_move_iff {c : Word} (hc : IsMove c 6) (h : 2 < c.rd.toNat) (s : Rsp) :
    (∃ s', s.exec c = some s' ∧ SameVco s s' ∧ SameVcc s s') ↔
      ∀ i : Fin 8, (s.r c.rt).getLsbD (i.val + 8) = s.vccH i := by
  have hbit : ∀ i : Fin 8, ((s.r c.rt).setWidth 16).getLsbD (i.val + 8) =
      (s.r c.rt).getLsbD (i.val + 8) := by
    intro i
    rw [BitVec.getLsbD_setWidth, decide_eq_true (by omega), Bool.true_and]
  rw [exec_ctc2 hc, setVflags_other s h]
  constructor
  · rintro ⟨s', hs, -, hvcc⟩ i
    obtain rfl := Option.some.inj hs
    exact (hbit i).symm.trans (congrFun hvcc.2 i)
  · intro hhigh
    refine ⟨_, rfl, ⟨rfl, rfl⟩, rfl, ?_⟩
    funext i
    exact (hbit i).trans (hhigh i)

/-- ctc2 keeps to the register it names exactly where it names one, or writes over the high half
of VCC what is there. -/
theorem flagMoves_iff (s : Rsp) {c : Word} (hc : IsMove c 6) :
    FlagMoves s c ↔
      c.rd.toNat ≤ 2 ∨ ∀ i : Fin 8, (s.r c.rt).getLsbD (i.val + 8) = s.vccH i := by
  constructor
  · intro h
    rcases Nat.lt_or_ge 2 c.rd.toNat with hrd | hrd
    · exact Or.inr ((other_move_iff hc hrd s).mp (h.other hrd))
    · exact Or.inl hrd
  · intro h
    refine ⟨fun _ f hf hrd => readback_moves hc hf hrd s,
      fun f hf hrd hrt => restore_moves hc hf hrd hrt s, ?_, ?_, ?_, ?_⟩
    · intro hrd
      refine ⟨_, exec_ctc2 hc s, ?_⟩
      rw [hrd]
      exact ⟨⟨rfl, rfl⟩, rfl⟩
    · intro hrd
      refine ⟨_, exec_ctc2 hc s, ?_⟩
      rw [hrd]
      exact ⟨⟨rfl, rfl⟩, rfl⟩
    · intro hrd
      refine ⟨_, exec_ctc2 hc s, ?_⟩
      rw [hrd]
      exact ⟨⟨rfl, rfl⟩, rfl, rfl⟩
    · intro hrd
      exact (other_move_iff hc hrd s).mpr (h.resolve_left (by omega))

/-- ctc2 of r1 to VCE. -/
theorem flagMoves_iff_vce : FlagMoves (init.setR 1 0xffff) 0x48c11000 ↔
    (0x48c11000 : Word).rd.toNat ≤ 2 ∨
      ∀ i : Fin 8, ((init.setR 1 0xffff).r (0x48c11000 : Word).rt).getLsbD (i.val + 8) =
        (init.setR 1 0xffff).vccH i :=
  flagMoves_iff (init.setR 1 0xffff) ⟨by decide, by decide, by decide⟩

/-- ctc2 of 0x100 to index 3 sets a clip compare of VCC. -/
theorem not_flagMoves : ¬ FlagMoves (init.setR 1 0x100) 0x48c11800 := by
  intro h
  have hother := (other_move_iff ⟨by decide, by decide, by decide⟩ (by decide) _).mp
    (h.other (by decide))
  exact absurd (hother 0) (by decide)

end RspBt.Rsp
