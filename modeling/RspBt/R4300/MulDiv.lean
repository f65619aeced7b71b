import RspBt.R4300.Predicate

namespace RspBt.R4300

/-- Signed, as mult and div read a word, or unsigned. -/
def wordValue (sgn : Bool) {w : ℕ} (x : BitVec w) : ℤ := if sgn then x.toInt else x.toNat

/-- The one quotient of two words that is no word. -/
def Overflows (sgn : Bool) (a b : Word) : Prop := sgn = true ∧ a = BitVec.intMin 32 ∧ b = -1

def wordDiv (sgn : Bool) (a b : Word) : Word := if sgn then a.sdiv b else a / b
def wordRem (sgn : Bool) (a b : Word) : Word := if sgn then a.srem b else a % b

theorem ofInt_wordValue (sgn : Bool) {w : ℕ} (x : BitVec w) :
    BitVec.ofInt w (wordValue sgn x) = x := by
  cases sgn with
  | true => exact BitVec.ofInt_toInt
  | false =>
    exact (BitVec.ofInt_natCast w x.toNat).trans
      ((BitVec.ofNat_toNat w x).trans (BitVec.setWidth_eq x))

/-- Division toward zero, but for the one quotient. -/
theorem wordValue_wordDiv {sgn : Bool} {a b : Word} (h : ¬ Overflows sgn a b) :
    wordValue sgn (wordDiv sgn a b) = (wordValue sgn a).tdiv (wordValue sgn b) := by
  cases sgn with
  | true =>
    apply BitVec.toInt_sdiv_of_ne_or_ne
    by_contra hne
    push Not at hne
    exact h ⟨rfl, hne⟩
  | false => exact Int.ofNat_tdiv a.toNat b.toNat

theorem wordValue_wordRem (sgn : Bool) (a b : Word) :
    wordValue sgn (wordRem sgn a b) = (wordValue sgn a).tmod (wordValue sgn b) := by
  cases sgn with
  | true => exact BitVec.toInt_srem a b
  | false => exact Int.ofNat_tmod a.toNat b.toNat

theorem wordDiv_of_overflows {sgn : Bool} {a b : Word} (h : Overflows sgn a b) :
    wordDiv sgn a b = BitVec.intMin 32 ∧ wordRem sgn a b = 0 := by
  obtain ⟨rfl, rfl, rfl⟩ := h
  decide

/-- Quotient times divisor and remainder, modulo 2^32. -/
theorem wordDiv_mul_add_wordRem (sgn : Bool) (a b : Word) :
    wordDiv sgn a b * b + wordRem sgn a b = a := by
  -- the overflow wraps, and so does the product with -1
  by_cases h : Overflows sgn a b
  · obtain ⟨hdiv, hrem⟩ := wordDiv_of_overflows h
    rw [hdiv, hrem, h.2.1, h.2.2]
    decide
  · have hint : (wordValue sgn a).tdiv (wordValue sgn b) * wordValue sgn b +
        (wordValue sgn a).tmod (wordValue sgn b) = wordValue sgn a := Int.tdiv_mul_add_tmod _ _
    rw [← wordValue_wordDiv h, ← wordValue_wordRem] at hint
    have hword := congrArg (BitVec.ofInt 32) hint
    rwa [BitVec.ofInt_add, BitVec.ofInt_mul, ofInt_wordValue, ofInt_wordValue, ofInt_wordValue,
      ofInt_wordValue] at hword

theorem toInt_sext32 (x : Word) : (sext32 x).toInt = x.toInt :=
  BitVec.toInt_signExtend_of_le (by decide)

/-- No extended word is the smallest dword, so nothing overflows there. -/
theorem sext32_ne_intMin (x : Word) : sext32 x ≠ BitVec.intMin 64 := by
  intro h
  have hx : -2 ^ 31 ≤ x.toInt := BitVec.le_toInt x
  have hmin : (BitVec.intMin 64).toInt = -2 ^ 63 := by decide
  rw [← toInt_sext32, h, hmin] at hx
  exact absurd hx (by decide)

theorem lo32_of_toInt {x : BitVec 64} {y : Word} (h : x.toInt.bmod (2 ^ 32) = y.toInt) :
    lo32 x = y := by
  apply BitVec.eq_of_toInt_eq
  rw [← h, lo32, BitVec.toInt_setWidth, BitVec.toInt_eq_toNat_bmod, Int.bmod_bmod_of_dvd (by decide)]

theorem lo32_sdiv (a b : Word) : lo32 ((sext32 a).sdiv (sext32 b)) = a.sdiv b := by
  apply lo32_of_toInt
  rw [BitVec.toInt_sdiv_of_ne_or_ne _ _ (Or.inl (sext32_ne_intMin a)), toInt_sext32, toInt_sext32,
    BitVec.toInt_sdiv]

theorem lo32_srem (a b : Word) : lo32 ((sext32 a).srem (sext32 b)) = a.srem b := by
  apply lo32_of_toInt
  rw [BitVec.toInt_srem, toInt_sext32, toInt_sext32, ← BitVec.toInt_srem,
    BitVec.toInt_bmod_cancel]

/-- After mult (multu): the halves of the exact product, each extended. -/
structure Multiplied (sgn : Bool) (a b : Word) (m' : Mach) : Prop where
  product : wordValue sgn (lo32 m'.hi ++ lo32 m'.lo) = wordValue sgn a * wordValue sgn b
  hi : sext32 (lo32 m'.hi) = m'.hi
  lo : sext32 (lo32 m'.lo) = m'.lo

/-- After div (divu): quotient and remainder modulo 2^32, each extended, and exact where the
quotient is a word. -/
structure Divided (sgn : Bool) (a b : Word) (m' : Mach) : Prop where
  quotient : m'.lo = sext32 (BitVec.ofInt 32 ((wordValue sgn a).tdiv (wordValue sgn b)))
  remainder : m'.hi = sext32 (BitVec.ofInt 32 ((wordValue sgn a).tmod (wordValue sgn b)))
  exact_lo : ¬ Overflows sgn a b →
    wordValue sgn (lo32 m'.lo) = (wordValue sgn a).tdiv (wordValue sgn b)
  exact_hi : wordValue sgn (lo32 m'.hi) = (wordValue sgn a).tmod (wordValue sgn b)
  overflow : Overflows sgn a b → m'.lo = sext32 (BitVec.intMin 32) ∧ m'.hi = 0
  identity : lo32 m'.lo * b + lo32 m'.hi = a

/-- The product of two words is a dword. -/
theorem wordValue_mul (sgn : Bool) (a b : Word) :
    wordValue sgn ((if sgn then sext32 a else a.setWidth 64) *
      (if sgn then sext32 b else b.setWidth 64)) = wordValue sgn a * wordValue sgn b := by
  cases sgn with
  | true =>
    have hle : ∀ x : Word, x.toInt.natAbs ≤ 2 ^ 31 := by
      intro x
      have hlo : -2 ^ 31 ≤ x.toInt := BitVec.le_toInt x
      have hhi : x.toInt < 2 ^ 31 := BitVec.toInt_lt
      omega
    have habs : (a.toInt * b.toInt).natAbs ≤ 2 ^ 31 * 2 ^ 31 := by
      rw [Int.natAbs_mul]
      exact Nat.mul_le_mul (hle a) (hle b)
    change (sext32 a * sext32 b).toInt = a.toInt * b.toInt
    rw [BitVec.toInt_mul, toInt_sext32, toInt_sext32]
    apply Int.bmod_eq_of_le <;> omega
  | false =>
    have ha := a.isLt
    have hb := b.isLt
    have hlt : a.toNat * b.toNat < 2 ^ 32 * 2 ^ 32 := Nat.mul_lt_mul'' ha hb
    change (((a.setWidth 64 * b.setWidth 64).toNat : ℕ) : ℤ) = a.toNat * b.toNat
    rw [BitVec.toNat_mul, BitVec.toNat_setWidth, BitVec.toNat_setWidth,
      Nat.mod_eq_of_lt (show a.toNat < 2 ^ 64 by omega),
      Nat.mod_eq_of_lt (show b.toNat < 2 ^ 64 by omega),
      Nat.mod_eq_of_lt (show a.toNat * b.toNat < 2 ^ 64 from hlt), Nat.cast_mul]

theorem halves (y : BitVec 64) : lo32 (y >>> 32) ++ lo32 y = y := by
  apply BitVec.eq_of_getLsbD_eq
  intro j hj
  grind [lo32]

theorem lo32_sshiftRight (y : BitVec 64) : lo32 (y.sshiftRight 32) = lo32 (y >>> 32) := by
  apply BitVec.eq_of_getLsbD_eq
  intro j hj
  grind [lo32]

section Emitted

variable {insn : Word} {m : Mach} {a b : Word} {pred : Option Bool}

theorem storeGuarded_of_ne {w : ℕ} (hpred : pred ≠ some false) (m : Mach) (p : StatePtr w)
    (v : BitVec w) : m.storeGuarded pred p v = m.store p v := by
  have hguard : ∀ old, guarded pred v old = v := by
    intro old
    match pred, hpred with
    | none, _ => rfl
    | some true, _ => rfl
  rw [Mach.storeGuarded, hguard]

def multExt (sgn : Bool) : Word → BitVec 64 := if sgn then sext32 else fun v => v.setWidth 64
def multShift (sgn : Bool) : BitVec 64 → BitVec 64 :=
  if sgn then fun y => y.sshiftRight 32 else fun y => y >>> 32

theorem emitMult_multiplied (hpred : pred ≠ some false) (hrs : m.getGPR insn.rs = sext32 a)
    (hrt : m.getGPR insn.rt = sext32 b) (sgn : Bool) :
    Multiplied sgn a b (emitMult insn (multExt sgn) (multShift sgn) pred m) := by
  let y := multExt sgn a * multExt sgn b
  have hrun : emitMult insn (multExt sgn) (multShift sgn) pred m =
      (m.store .lo (sext32 (lo32 y))).store .hi (sext32 (lo32 (multShift sgn y))) := by
    simp only [emitMult, hrs, hrt, lo32_sext32, storeGuarded_of_ne hpred, y]
  have hshift : lo32 (multShift sgn y) = lo32 (y >>> 32) := by
    cases sgn with
    | true => exact lo32_sshiftRight y
    | false => rfl
  have hvalue : wordValue sgn y = wordValue sgn a * wordValue sgn b := by
    rw [← wordValue_mul]
    cases sgn <;> rfl
  rw [hrun, hshift]
  refine ⟨?_, ?_, ?_⟩
  · change wordValue sgn (lo32 (sext32 (lo32 (y >>> 32))) ++ lo32 (sext32 (lo32 y))) = _
    rw [lo32_sext32, lo32_sext32, halves, hvalue]
  · exact congrArg sext32 (lo32_sext32 _)
  · exact congrArg sext32 (lo32_sext32 _)

theorem sext32_ne_zero (hb : b ≠ 0) : sext32 b ≠ 0 := by
  intro h
  have hlo := lo32_sext32 b
  rw [h] at hlo
  exact hb hlo.symm

/-- Both zero tests see a divisor, and both divisions compute the word results. -/
theorem emitDiv_of_ne (hpred : pred ≠ some false) (hrs : m.getGPR insn.rs = sext32 a)
    (hrt : m.getGPR insn.rt = sext32 b) (hb : b ≠ 0) (sgn : Bool) :
    emitDiv insn sgn pred m =
      (m.store .lo (sext32 (wordDiv sgn a b))).store .hi (sext32 (wordRem sgn a b)) := by
  have hb32 : (b != 0) = true := bne_iff_ne.mpr hb
  have hb64 : (sext32 b != 0) = true := bne_iff_ne.mpr (sext32_ne_zero hb)
  cases sgn with
  | true =>
    simp only [emitDiv, hrs, hrt, lo32_sext32, hb32, if_true, lo32_sdiv, lo32_srem,
      storeGuarded_of_ne hpred, wordDiv, wordRem]
  | false =>
    simp only [emitDiv, hrs, hrt, lo32_sext32, hb32, hb64, if_true, Bool.false_eq_true, if_false,
      storeGuarded_of_ne hpred, wordDiv, wordRem]

/-- Neither sees one, and HI and LO are stored back. -/
theorem emitDiv_of_zero (hrt : m.getGPR insn.rt = sext32 0) (sgn : Bool) :
    emitDiv insn sgn pred m = m := by
  have hself : ∀ (m : Mach) {w : ℕ} (p : StatePtr w), m.storeGuarded pred p (m.load p) = m := by
    intro m w p
    have hguard : guarded pred (m.load p) (m.load p) = m.load p := by
      match pred with
      | none => rfl
      | some true => rfl
      | some false => rfl
    rw [Mach.storeGuarded, hguard, Mach.store_load]
  have hnz : (if sgn then (0 : Word) != 0 else sext32 0 != 0) = false := by
    cases sgn <;> decide
  simp only [emitDiv, hrt, lo32_sext32, hnz, Bool.false_eq_true, if_false]
  rw [hself]
  exact hself m .hi

theorem ofInt_tdiv (sgn : Bool) (a b : Word) :
    BitVec.ofInt 32 ((wordValue sgn a).tdiv (wordValue sgn b)) = wordDiv sgn a b := by
  by_cases h : Overflows sgn a b
  · obtain ⟨rfl, rfl, rfl⟩ := h
    decide
  · rw [← wordValue_wordDiv h, ofInt_wordValue]

theorem ofInt_tmod (sgn : Bool) (a b : Word) :
    BitVec.ofInt 32 ((wordValue sgn a).tmod (wordValue sgn b)) = wordRem sgn a b := by
  rw [← wordValue_wordRem, ofInt_wordValue]

theorem emitDiv_divided (hpred : pred ≠ some false) (hrs : m.getGPR insn.rs = sext32 a)
    (hrt : m.getGPR insn.rt = sext32 b) (hb : b ≠ 0) (sgn : Bool) :
    Divided sgn a b (emitDiv insn sgn pred m) := by
  rw [emitDiv_of_ne hpred hrs hrt hb]
  have hlo : lo32 (sext32 (wordDiv sgn a b)) = wordDiv sgn a b := lo32_sext32 _
  have hhi : lo32 (sext32 (wordRem sgn a b)) = wordRem sgn a b := lo32_sext32 _
  refine ⟨?_, ?_, fun h => ?_, ?_, fun h => ?_, ?_⟩
  · rw [ofInt_tdiv]
    rfl
  · rw [ofInt_tmod]
    rfl
  · exact (congrArg (wordValue sgn) hlo).trans (wordValue_wordDiv h)
  · exact (congrArg (wordValue sgn) hhi).trans (wordValue_wordRem sgn a b)
  · obtain ⟨hdiv, hrem⟩ := wordDiv_of_overflows h
    rw [hdiv, hrem]
    exact ⟨rfl, rfl⟩
  · change lo32 (sext32 (wordDiv sgn a b)) * b + lo32 (sext32 (wordRem sgn a b)) = a
    rw [hlo, hhi, wordDiv_mul_add_wordRem]

end Emitted

/-- The host's 64-bit signed division: a zero divisor traps, and so does a quotient of 2^63. -/
def hostSigned (op : BitVec 64 → BitVec 64 → BitVec 64) (a d : BitVec 64) : Option (BitVec 64) :=
  if d = 0 ∨ a = BitVec.intMin 64 ∧ d = -1 then none else some (op a d)

def hostUnsigned (op : Word → Word → Word) (a d : Word) : Option Word :=
  if d = 0 then none else some (op a d)

/-- div and divu on the host, the two divisions of each executed whatever is selected later. -/
def emitDivHost (insn : Word) (sgn : Bool) (pred : Option Bool) (m : Mach) : Option Mach := do
  let a32 := lo32 (m.getGPR insn.rs)
  let b32 := lo32 (m.getGPR insn.rt)
  let nz := if sgn then b32 != 0 else m.getGPR insn.rt != 0
  let d := if b32 != 0 then b32 else 1
  let q ← if sgn then (hostSigned BitVec.sdiv (sext32 a32) (sext32 d)).map fun q => sext32 (lo32 q)
    else (hostUnsigned (· / ·) a32 d).map sext32
  let r ← if sgn then (hostSigned BitVec.srem (sext32 a32) (sext32 d)).map fun r => sext32 (lo32 r)
    else (hostUnsigned (· % ·) a32 d).map sext32
  let oldLo := m.load .lo
  let oldHi := m.load .hi
  let m := m.storeGuarded pred .lo (if nz then q else oldLo)
  return m.storeGuarded pred .hi (if nz then r else oldHi)

theorem hostSigned_sext32 (op : BitVec 64 → BitVec 64 → BitVec 64) (a : Word) {d : Word}
    (hd : d ≠ 0) : hostSigned op (sext32 a) (sext32 d) = some (op (sext32 a) (sext32 d)) := by
  apply if_neg
  rintro (h | ⟨h, -⟩)
  · exact sext32_ne_zero hd h
  · exact sext32_ne_intMin a h

theorem hostUnsigned_of_ne (op : Word → Word → Word) (a : Word) {d : Word} (hd : d ≠ 0) :
    hostUnsigned op a d = some (op a d) := if_neg hd

/-- No state and no predicate makes the host trap. -/
theorem emitDivHost_eq (insn : Word) (sgn : Bool) (pred : Option Bool) (m : Mach) :
    emitDivHost insn sgn pred m = some (emitDiv insn sgn pred m) := by
  -- the divisor put in for zero: nothing is selected before the division is done
  have hd : (if lo32 (m.getGPR insn.rt) != 0 then lo32 (m.getGPR insn.rt) else 1) ≠ 0 := by
    split_ifs with h
    · exact bne_iff_ne.mp h
    · decide
  cases sgn with
  | true =>
    simp only [emitDivHost, if_true, hostSigned_sext32 _ _ hd, Option.map_some]
    rfl
  | false =>
    simp only [emitDivHost, Bool.false_eq_true, if_false, hostUnsigned_of_ne _ _ hd, Option.map_some]
    rfl

def multFn (sgn : Bool) : BitVec 6 := if sgn then 0x18 else 0x19
def divFn (sgn : Bool) : BitVec 6 := if sgn then 0x1a else 0x1b

theorem emitOne_mult (fp : FpUnit) {insn : Word} {sgn : Bool} (hop : insn.op = 0)
    (hfn : insn.fn = multFn sgn) :
    emitOne fp insn = some (emitMult insn (multExt sgn) (multShift sgn)) := by
  cases sgn <;> simp only [emitOne, hop, emitSpecial, hfn] <;> rfl

theorem emitOne_div (fp : FpUnit) {insn : Word} {sgn : Bool} (hop : insn.op = 0)
    (hfn : insn.fn = divFn sgn) : emitOne fp insn = some (emitDiv insn sgn) := by
  cases sgn <;> simp only [emitOne, hop, emitSpecial, hfn] <;> rfl

/-- mult and div are exact on sign-extended words where they take effect, and a division never
traps, from any state. -/
theorem mulDiv_exact (fp : FpUnit) {insn : Word} (hop : insn.op = 0) (sgn : Bool) :
    (insn.fn = multFn sgn → ∃ e, emitOne fp insn = some e ∧
      ∀ m a b pred, m.getGPR insn.rs = sext32 a → m.getGPR insn.rt = sext32 b →
        pred ≠ some false → Multiplied sgn a b (e pred m)) ∧
      (insn.fn = divFn sgn → ∃ e, emitOne fp insn = some e ∧
        (∀ m a b pred, m.getGPR insn.rs = sext32 a → m.getGPR insn.rt = sext32 b →
          pred ≠ some false → b ≠ 0 → Divided sgn a b (e pred m)) ∧
        (∀ m pred, m.getGPR insn.rt = 0 → e pred m = m) ∧
        ∀ m pred, emitDivHost insn sgn pred m = some (e pred m)) := by
  constructor
  · intro hfn
    refine ⟨_, emitOne_mult fp hop hfn, fun m a b pred hrs hrt hpred => ?_⟩
    exact emitMult_multiplied hpred hrs hrt sgn
  · intro hfn
    refine ⟨_, emitOne_div fp hop hfn, fun m a b pred hrs hrt hpred hb => ?_, fun m pred hrt => ?_,
      fun m pred => emitDivHost_eq insn sgn pred m⟩
    · exact emitDiv_divided hpred hrs hrt hb sgn
    · exact emitDiv_of_zero (by rw [hrt]; rfl) sgn

/-- The smallest word by -1. -/
theorem mulDiv_exact_overflow :
    ∃ e, emitOne FpUnit.zero 0x0022001a = some e ∧
      (e none { Mach.zero with
        gpr := fun r => if r = 1 then sext32 0x80000000 else sext32 0xffffffff }).hi = 0 := by
  obtain ⟨e, he, hdiv, -⟩ :=
    (@mulDiv_exact FpUnit.zero 0x0022001a (by decide) true).2 (by decide)
  refine ⟨e, he, ?_⟩
  have hd := hdiv { Mach.zero with
    gpr := fun r => if r = 1 then sext32 0x80000000 else sext32 0xffffffff } 0x80000000 0xffffffff
    none (by decide) (by decide) (by decide) (by decide)
  exact (hd.overflow ⟨rfl, by decide, by decide⟩).2

end RspBt.R4300
