import Mathlib.Data.BitVec
import Mathlib.Data.Fintype.EquivFin
import RspBt.Lib.Lanes

namespace RspBt

abbrev Word := BitVec 32
abbrev Byte := BitVec 8

instance : LawfulBEq Word := inferInstance
instance : Finite Word := Finite.of_injective BitVec.toFin BitVec.toFin_injective

namespace Word

def op (w : Word) : BitVec 6 := w.extractLsb' 26 6
def rs (w : Word) : BitVec 5 := w.extractLsb' 21 5
def rt (w : Word) : BitVec 5 := w.extractLsb' 16 5
def rd (w : Word) : BitVec 5 := w.extractLsb' 11 5
def sa (w : Word) : BitVec 5 := w.extractLsb' 6 5
def fn (w : Word) : BitVec 6 := w.extractLsb' 0 6
def simm (w : Word) : Word := (w.extractLsb' 0 16).signExtend 32
def uimm (w : Word) : Word := w &&& 0xffff

def vecE (w : Word) : BitVec 4 := w.extractLsb' 21 4

/-- Element field, a byte offset, of the moves and of the vector loads and stores. -/
def byteE (w : Word) : BitVec 4 := w.extractLsb' 7 4

def offs (w : Word) : Word := (w <<< 25).sshiftRight 25

/-- Bit 25: a COP2 operation rather than a COP2 move. -/
def isVecOp (w : Word) : Bool := w.getLsbD 25

theorem getLsbD_const {x : Word} {p : ℕ → Prop} [DecidablePred p]
    (h : ∀ j : Fin 32, x.getLsbD j = decide (p j)) (hp : ∀ j, p j → j < 32) (j : ℕ) :
    x.getLsbD j = decide (p j) := by
  by_cases hj : j < 32
  · exact h ⟨j, hj⟩
  · rw [BitVec.getLsbD_of_ge _ _ (by omega), decide_eq_false fun hpj => hj (hp j hpj)]

theorem toNat_and_ffc (a : Word) : (a &&& 0xffc).toNat = a.toNat % 0x1000 / 4 * 4 := by
  have hffc : ∀ j, (0xffc : Word).getLsbD j = decide (2 ≤ j ∧ j < 12) :=
    getLsbD_const (by decide) (by omega)
  have hfff : ∀ j, (0xfff : Word).getLsbD j = decide (j < 12) :=
    getLsbD_const (by decide) (by omega)
  have h : a &&& (0xffc : Word) = ((a &&& 0xfff) >>> 2) <<< 2 := by
    apply BitVec.eq_of_getLsbD_eq
    grind
  have h12 : (a &&& 0xfff).toNat = a.toNat % 0x1000 := by
    rw [BitVec.toNat_and]
    exact Nat.and_two_pow_sub_one_eq_mod a.toNat 12
  rw [h, BitVec.toNat_shiftLeft, BitVec.toNat_ushiftRight, h12, Nat.shiftLeft_eq,
    Nat.shiftRight_eq_div_pow]
  omega

theorem and_ffc_idem (a : Word) : (a &&& 0xffc) &&& 0xffc = a &&& 0xffc := by
  rw [BitVec.and_assoc, BitVec.and_self]

/-- An offset of whole words can be added before the mask or after it. -/
theorem and_ffc_add (a x : Word) (hx : x.toNat % 4 = 0) :
    ((a &&& 0xffc) + x) &&& 0xffc = (a + x) &&& 0xffc := by
  apply BitVec.eq_of_toNat_eq
  rw [toNat_and_ffc, toNat_and_ffc, BitVec.toNat_add, BitVec.toNat_add, toNat_and_ffc]
  have ha := a.isLt
  have hxl := x.isLt
  omega

end Word

def boolWord (b : Bool) : Word := if b then 1 else 0

def hiByte (x : BitVec 16) : Byte := x.extractLsb' 8 8
def loByte (x : BitVec 16) : Byte := x.extractLsb' 0 8

@[simp] theorem hiByte_append (a b : Byte) : hiByte (a ++ b) = a := BitVec.extractLsb'_append_eq_left
@[simp] theorem loByte_append (a b : Byte) : loByte (a ++ b) = b := BitVec.extractLsb'_append_eq_right
@[simp] theorem hiByte_append_loByte (x : BitVec 16) : hiByte x ++ loByte x = x :=
  BitVec.extractLsb'_append_extractLsb'

/-- What an instruction can read or write of `rsp_t`. -/
@[ext]
structure Rsp where
  r : BitVec 5 → Word
  /-- DMEM is `[0, 0x1000)`, IMEM `[0x1000, 0x2000)`. -/
  mem : ℕ → Byte
  v : BitVec 5 → Lib.Lanes 8 16
  acc : Lib.Lanes 8 64
  vcoL : Lib.Mask 8
  vcoH : Lib.Mask 8
  vccL : Lib.Mask 8
  vccH : Lib.Mask 8
  vce : Lib.Mask 8
  spMemAddr : Word
  spDramAddr : Word
  spStatus : Word
  imemGen : BitVec 64
  rdram : ℕ → Byte

/-- And the sequencing, which only `run` touches. -/
structure RspT where
  core : Rsp
  pc : Word
  halted : Bool
  nInsns : BitVec 64

namespace Rsp

/-- The member initialisers, over a zeroed RDRAM. -/
def init : Rsp where
  r := fun _ => 0
  mem := fun _ => 0
  v := fun _ _ => 0
  acc := fun _ => 0
  vcoL := fun _ => false
  vcoH := fun _ => false
  vccL := fun _ => false
  vccH := fun _ => false
  vce := fun _ => false
  spMemAddr := 0
  spDramAddr := 0
  spStatus := 0
  imemGen := 0
  rdram := fun _ => 0

def setR (s : Rsp) (i : BitVec 5) (x : Word) : Rsp := { s with r := Function.update s.r i x }
def setV (s : Rsp) (i : BitVec 5) (x : Lib.Lanes 8 16) : Rsp :=
  { s with v := Function.update s.v i x }
def setMem (s : Rsp) (a : ℕ) (b : Byte) : Rsp := { s with mem := Function.update s.mem a b }

def zeroR0 (s : Rsp) : Rsp := s.setR 0 0

def dmemIdx (a : Word) : ℕ := (a &&& 0xfff).toNat

theorem dmemIdx_eq (a : Word) : dmemIdx a = a.toNat % 0x1000 := by
  rw [dmemIdx, BitVec.toNat_and]
  exact Nat.and_two_pow_sub_one_eq_mod a.toNat 12

theorem dmemIdx_lt (a : Word) : dmemIdx a < 0x1000 := by
  rw [dmemIdx_eq]
  omega

def rd8 (s : Rsp) (a : Word) : Byte := s.mem (dmemIdx a)
def rd16 (s : Rsp) (a : Word) : BitVec 16 := s.rd8 a ++ s.rd8 (a + 1)
def rd32 (s : Rsp) (a : Word) : Word := s.rd8 a ++ s.rd8 (a + 1) ++ s.rd8 (a + 2) ++ s.rd8 (a + 3)

def wr8 (s : Rsp) (a : Word) (x : Byte) : Rsp := s.setMem (dmemIdx a) x
def wr16 (s : Rsp) (a : Word) (x : BitVec 16) : Rsp :=
  (s.wr8 a (hiByte x)).wr8 (a + 1) (loByte x)
def wr32 (s : Rsp) (a : Word) (x : Word) : Rsp :=
  (((s.wr8 a (x.extractLsb' 24 8)).wr8 (a + 1) (x.extractLsb' 16 8)).wr8 (a + 2)
    (x.extractLsb' 8 8)).wr8 (a + 3) (x.extractLsb' 0 8)

def byteLane (i : ℕ) : Fin 8 := ⟨i % 16 / 2, by omega⟩

/-- Byte `i` of a register: the low half of its lane for odd `i`. -/
def regByte (x : Lib.Lanes 8 16) (i : ℕ) : Byte :=
  if i % 2 = 1 then loByte (x (byteLane i)) else hiByte (x (byteLane i))

def vbyte (s : Rsp) (vt : BitVec 5) (i : ℕ) : Byte := regByte (s.v vt) i

def setVbyte (s : Rsp) (vt : BitVec 5) (i : ℕ) (b : Byte) : Rsp :=
  let x := s.v vt (byteLane i)
  s.setV vt (Function.update (s.v vt) (byteLane i)
    (if i % 2 = 1 then hiByte x ++ b else b ++ loByte x))

end Rsp

end RspBt
