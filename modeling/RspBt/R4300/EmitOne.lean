import RspBt.R4300.Cfg

namespace RspBt.R4300

/-- The GPRs in their allocas, what else of `state_t` code touches, and guest memory. -/
structure Mach where
  gpr : BitVec 5 → BitVec 64
  lo : BitVec 64
  hi : BitVec 64
  /-- The halves of the flat 64-bit slots, the low one first. -/
  cpr1 : ℕ → Word
  /-- The condition codes, `fcr1[CP1_CR25]`. -/
  fcc : Word
  ram : ℕ → Byte

/-- The operations of one format, on bit patterns. -/
structure Fp (w : ℕ) where
  add : BitVec w → BitVec w → BitVec w
  sub : BitVec w → BitVec w → BitVec w
  mul : BitVec w → BitVec w → BitVec w
  div : BitVec w → BitVec w → BitVec w
  abs : BitVec w → BitVec w
  neg : BitVec w → BitVec w
  oeq : BitVec w → BitVec w → Bool
  olt : BitVec w → BitVec w → Bool
  ole : BitVec w → BitVec w → Bool
  oge : BitVec w → BitVec w → Bool
  toSI : BitVec w → Word
  ofSI : Word → BitVec w
  /-- -2147483648.0 and 2147483648.0. -/
  minI32 : BitVec w
  endI32 : BitVec w

structure FpUnit where
  s : Fp 32
  d : Fp 64
  trunc : BitVec 64 → Word
  ext : Word → BitVec 64

/-- float -> int32 as cvttsd2si has it: 0x80000000 for NaN and for what is out of range. -/
def Fp.toI32 {w : ℕ} (fp : Fp w) (v : BitVec w) : Word :=
  if fp.oge v fp.minI32 && fp.olt v fp.endI32 then fp.toSI v else 0x80000000

/-- What an LLVM select on the predicate leaves of a new value and an old one. -/
def guarded {α : Type*} (pred : Option Bool) (new old : α) : α :=
  match pred with
  | none => new
  | some p => if p then new else old

/-- A pointer into `state_t`, by the width of what it points to. -/
inductive StatePtr : ℕ → Type
  | lo : StatePtr 64
  | hi : StatePtr 64
  | fcc : StatePtr 32
  | word (i : ℕ) : StatePtr 32
  | slot (i : ℕ) : StatePtr 64

/-- Arithmetic, cvt and trunc index `cpr1` directly. -/
def fprPtr32 (r : BitVec 5) : StatePtr 32 := .word (2 * r.toNat)
def fprPtr64 (r : BitVec 5) : StatePtr 64 := .slot (2 * r.toNat)

/-- With FR=0 a single lives in the `r & 1` half of slot `r & ~1`. -/
def fprHalfPtr (r : BitVec 5) : StatePtr 32 := .word (2 * (r &&& ~~~1).toNat + (r &&& 1).toNat)

/-- A double is the whole slot `r & ~1`. -/
def fprDblPtr (r : BitVec 5) : StatePtr 64 := .slot (2 * (r &&& ~~~1).toNat)

def sext32 (v : Word) : BitVec 64 := v.signExtend 64
def lo32 (v : BitVec 64) : Word := v.setWidth 32
def boolDword (p : Bool) : BitVec 64 := if p then 1 else 0

theorem lo32_sext32 (x : Word) : lo32 (sext32 x) = x := by
  apply BitVec.eq_of_getLsbD_eq
  intro i hi
  rw [lo32, sext32, BitVec.getLsbD_setWidth, BitVec.getLsbD_signExtend, if_pos hi,
    decide_eq_true hi, decide_eq_true (show i < 64 by omega), Bool.true_and, Bool.true_and]

/-- Where a squashed store goes. -/
def bitbucketPa : Word := 0x00700b00

/-- The game's TLB alias at 0x70000000 has PFN 0. -/
def physAddr (ea : BitVec 64) : Word :=
  let va := lo32 ea
  if va >>> 28 = 7 then va &&& 0x0fffffff else va &&& 0x1fffffff

/-- Big-endian guest memory: a host load and a swap of its bytes. -/
def loadBytes (ram : ℕ → Byte) (a : ℕ) : (n : ℕ) → BitVec (8 * n)
  | 0 => 0
  | n + 1 => (loadBytes ram a n ++ ram (a + n) : BitVec (8 * n + 8))

def storeBytes (ram : ℕ → Byte) (a n : ℕ) (v : BitVec (8 * n)) : ℕ → Byte := fun x =>
  if a ≤ x ∧ x < a + n then v.extractLsb' (8 * (a + n - 1 - x)) 8 else ram x

namespace Mach

variable (m : Mach)

def load {w : ℕ} : StatePtr w → BitVec w
  | .lo => m.lo
  | .hi => m.hi
  | .fcc => m.fcc
  | .word i => m.cpr1 i
  | .slot i => m.cpr1 (i + 1) ++ m.cpr1 i

def store {w : ℕ} (p : StatePtr w) (v : BitVec w) : Mach :=
  match p with
  | .lo => { m with lo := v }
  | .hi => { m with hi := v }
  | .fcc => { m with fcc := v }
  | .word i => { m with cpr1 := Function.update m.cpr1 i v }
  | .slot i =>
    let low := Function.update m.cpr1 i (lo32 v)
    { m with cpr1 := Function.update low (i + 1) (lo32 (v >>> 32)) }

def getGPR (r : BitVec 5) : BitVec 64 := if r = 0 then 0 else m.gpr r

def setGPR (pred : Option Bool) (r : BitVec 5) (v : BitVec 64) : Mach :=
  if r = 0 then m else { m with gpr := Function.update m.gpr r (guarded pred v (m.gpr r)) }

def effAddr (insn : Word) : BitVec 64 := m.getGPR insn.rs + insn.simm.signExtend 64

def loadMem (ea : BitVec 64) (n : ℕ) : BitVec (8 * n) := loadBytes m.ram (physAddr ea).toNat n

def storeMem (pred : Option Bool) (ea : BitVec 64) (n : ℕ) (v : BitVec (8 * n)) : Mach :=
  let pa := guarded pred (physAddr ea) bitbucketPa
  { m with ram := storeBytes m.ram pa.toNat n v }

/-- A store into `state_t`, predicated like every other architectural effect. -/
def storeGuarded (pred : Option Bool) {w : ℕ} (p : StatePtr w) (v : BitVec w) : Mach :=
  m.store p (guarded pred v (m.load p))

end Mach

abbrev Emit := Option Bool → Mach → Mach

/-- FMT_S and FMT_D arithmetic, less the conversions between them. -/
def emitArith {w : ℕ} (fp : Fp w) (ptr : BitVec 5 → StatePtr w) (insn : Word) : Option Emit :=
  let get (r : BitVec 5) (m : Mach) : BitVec w := m.load (ptr r)
  let put (v : Mach → BitVec w) : Option Emit :=
    some fun pred m => m.storeGuarded pred (ptr insn.sa) (v m)
  let cond (cmp : BitVec w → BitVec w → Bool) : Option Emit :=
    let bit : Word := 1 <<< (insn >>> 8 &&& 7).toNat
    some fun pred m =>
      let old := m.load .fcc
      m.storeGuarded pred .fcc
        (if cmp (get insn.rd m) (get insn.rt m) then old ||| bit else old &&& ~~~bit)
  match insn.fn with
  | 0x00 => put fun m => fp.add (get insn.rd m) (get insn.rt m)
  | 0x01 => put fun m => fp.sub (get insn.rd m) (get insn.rt m)
  | 0x02 => put fun m => fp.mul (get insn.rd m) (get insn.rt m)
  | 0x03 => put fun m => fp.div (get insn.rd m) (get insn.rt m)
  | 0x05 => put fun m => fp.abs (get insn.rd m)
  | 0x06 => put fun m => get insn.rd m
  | 0x07 => put fun m => fp.neg (get insn.rd m)
  | 0x0d => some fun pred m =>
      m.storeGuarded pred (fprPtr32 insn.sa) (fp.toI32 (get insn.rd m))
  | 0x31 | 0x32 => cond fp.oeq
  | 0x3c => cond fp.olt
  | 0x3e => cond fp.ole
  | _ => none

/-- One COP1 instruction; `none` is not translated. -/
def emitCop1 (fp : FpUnit) (insn : Word) : Option Emit :=
  match insn.rs with
  | 0x00 => some fun pred m => m.setGPR pred insn.rt (sext32 (m.load (fprHalfPtr insn.rd)))
  | 0x04 => some fun pred m => m.storeGuarded pred (fprHalfPtr insn.rd) (lo32 (m.getGPR insn.rt))
  | 0x10 =>
    if insn.fn = 0x21 then some fun pred m =>
      m.storeGuarded pred (fprPtr64 insn.sa) (fp.ext (m.load (fprPtr32 insn.rd)))
    else emitArith fp.s fprPtr32 insn
  | 0x11 =>
    if insn.fn = 0x20 then some fun pred m =>
      m.storeGuarded pred (fprPtr32 insn.sa) (fp.trunc (m.load (fprPtr64 insn.rd)))
    else emitArith fp.d fprPtr64 insn
  | 0x14 =>
    match insn.fn with
    | 0x20 => some fun pred m =>
        m.storeGuarded pred (fprPtr32 insn.sa) (fp.s.ofSI (m.load (fprPtr32 insn.rd)))
    | 0x21 => some fun pred m =>
        m.storeGuarded pred (fprPtr64 insn.sa) (fp.d.ofSI (m.load (fprPtr32 insn.rd)))
    | _ => none
  | _ => none

def emitMult (insn : Word) (ext : Word → BitVec 64) (shift : BitVec 64 → BitVec 64) : Emit :=
  fun pred m =>
    let y := ext (lo32 (m.getGPR insn.rs)) * ext (lo32 (m.getGPR insn.rt))
    let m := m.storeGuarded pred .lo (sext32 (lo32 y))
    m.storeGuarded pred .hi (sext32 (lo32 (shift y)))

/-- div and divu: a zero divisor leaves lo and hi, and is not divided by. -/
def emitDiv (insn : Word) (sgn : Bool) : Emit := fun pred m =>
  let a32 := lo32 (m.getGPR insn.rs)
  let b32 := lo32 (m.getGPR insn.rt)
  -- div looks at the low 32 bits of rt, divu at all 64
  let nz := if sgn then b32 != 0 else m.getGPR insn.rt != 0
  let d := if b32 != 0 then b32 else 1
  let q := if sgn then sext32 (lo32 ((sext32 a32).sdiv (sext32 d))) else sext32 (a32 / d)
  let r := if sgn then sext32 (lo32 ((sext32 a32).srem (sext32 d))) else sext32 (a32 % d)
  let oldLo := m.load .lo
  let oldHi := m.load .hi
  let m := m.storeGuarded pred .lo (if nz then q else oldLo)
  m.storeGuarded pred .hi (if nz then r else oldHi)

/-- Opcode 0.  add and sub trap and are left to the interpreter. -/
def emitSpecial (insn : Word) : Option Emit :=
  let set (v : Mach → BitVec 64) : Option Emit := some fun pred m => m.setGPR pred insn.rd (v m)
  let rs (m : Mach) := m.getGPR insn.rs
  let rt (m : Mach) := m.getGPR insn.rt
  let amt (m : Mach) : ℕ := (lo32 (rs m) &&& 31).toNat
  match insn.fn with
  | 0x00 => set fun m => sext32 (lo32 (rt m) <<< insn.sa.toNat)
  | 0x02 => set fun m => sext32 (lo32 (rt m) >>> insn.sa.toNat)
  | 0x03 => set fun m => sext32 ((lo32 (rt m)).sshiftRight insn.sa.toNat)
  | 0x04 => set fun m => sext32 (lo32 (rt m) <<< amt m)
  | 0x06 => set fun m => sext32 (lo32 (rt m) >>> amt m)
  | 0x07 => set fun m => sext32 ((lo32 (rt m)).sshiftRight (amt m))
  | 0x21 => set fun m => sext32 (lo32 (rs m) + lo32 (rt m))
  | 0x23 => set fun m => sext32 (lo32 (rs m) - lo32 (rt m))
  | 0x24 => set fun m => rs m &&& rt m
  | 0x25 => set fun m => rs m ||| rt m
  | 0x26 => set fun m => rs m ^^^ rt m
  | 0x27 => set fun m => ~~~(rs m ||| rt m)
  | 0x10 => set fun m => m.load .hi
  | 0x11 => some fun pred m => m.storeGuarded pred .hi (rs m)
  | 0x12 => set fun m => m.load .lo
  | 0x13 => some fun pred m => m.storeGuarded pred .lo (rs m)
  | 0x18 => some (emitMult insn sext32 fun y => y.sshiftRight 32)
  | 0x19 => some (emitMult insn (fun v => v.setWidth 64) fun y => y >>> 32)
  | 0x1a => some (emitDiv insn true)
  | 0x1b => some (emitDiv insn false)
  | 0x2a => set fun m => boolDword ((rs m).slt (rt m))
  | 0x2b => set fun m => boolDword ((rs m).ult (rt m))
  | _ => none

/-- One instruction that is no transfer; `none` is not translated. Under a predicate, as the slot
of a branch-likely, it runs all the same and every effect is selected. -/
def emitOne (fp : FpUnit) (insn : Word) : Option Emit :=
  let set (v : Mach → BitVec 64) : Option Emit := some fun pred m => m.setGPR pred insn.rt (v m)
  let stor (n : ℕ) (v : Mach → BitVec (8 * n)) : Option Emit :=
    some fun pred m => m.storeMem pred (m.effAddr insn) n (v m)
  let rs (m : Mach) := m.getGPR insn.rs
  let rt (m : Mach) := m.getGPR insn.rt
  let simm := insn.simm.signExtend 64
  let imm := insn.uimm.setWidth 64
  match insn.op with
  | 0x00 => emitSpecial insn
  | 0x09 => set fun m => sext32 (lo32 (rs m) + insn.simm)
  | 0x0a => set fun m => boolDword ((rs m).slt simm)
  | 0x0b => set fun m => boolDword ((rs m).ult simm)
  | 0x0c => set fun m => rs m &&& imm
  | 0x0d => set fun m => rs m ||| imm
  | 0x0e => set fun m => rs m ^^^ imm
  | 0x0f => set fun _ => sext32 (insn.uimm <<< 16)
  | 0x20 => set fun m => (m.loadMem (m.effAddr insn) 1).signExtend 64
  | 0x21 => set fun m => (m.loadMem (m.effAddr insn) 2).signExtend 64
  | 0x23 => set fun m => (m.loadMem (m.effAddr insn) 4).signExtend 64
  | 0x24 => set fun m => (m.loadMem (m.effAddr insn) 1).setWidth 64
  | 0x25 => set fun m => (m.loadMem (m.effAddr insn) 2).setWidth 64
  | 0x27 => set fun m => (m.loadMem (m.effAddr insn) 4).setWidth 64
  | 0x37 => set fun m => m.loadMem (m.effAddr insn) 8
  | 0x28 => stor 1 fun m => (rt m).setWidth 8
  | 0x29 => stor 2 fun m => (rt m).setWidth 16
  | 0x2b => stor 4 fun m => lo32 (rt m)
  | 0x3f => stor 8 fun m => rt m
  | 0x31 => some fun pred m =>
      m.storeGuarded pred (fprHalfPtr insn.rt) (m.loadMem (m.effAddr insn) 4)
  | 0x35 => some fun pred m =>
      m.storeGuarded pred (fprDblPtr insn.rt) (m.loadMem (m.effAddr insn) 8)
  | 0x39 => stor 4 fun m => m.load (fprHalfPtr insn.rt)
  | 0x3d => stor 8 fun m => m.load (fprDblPtr insn.rt)
  | 0x11 => emitCop1 fp insn
  | _ => none

def Fp.zero (w : ℕ) : Fp w where
  add _ _ := 0
  sub _ _ := 0
  mul _ _ := 0
  div _ _ := 0
  abs _ := 0
  neg _ := 0
  oeq _ _ := true
  olt _ _ := false
  ole _ _ := true
  oge _ _ := true
  toSI _ := 0
  ofSI _ := 0
  minI32 := 0
  endI32 := 0

def FpUnit.zero : FpUnit := ⟨Fp.zero 32, Fp.zero 64, fun _ => 0, fun _ => 0⟩

def Mach.zero : Mach := ⟨fun _ => 0, 0, 0, fun _ => 0, 0, fun _ => 0⟩

end RspBt.R4300
