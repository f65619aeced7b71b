import RspBt.Bt.Frame

namespace RspBt

open Lib

inductive RTypeInsn
  | add | sub | and | or | xor | nor | slt | sltu | sllv | srlv | srav
deriving DecidableEq

inductive ITypeInsn
  | sll | srl | sra | addi | slti | sltiu | andi | ori | xori | lui
deriving DecidableEq

inductive MemInsn
  | lb | lbu | lh | lhu | lw | sb | sh | sw
deriving DecidableEq

inductive IBranchTypeInsn
  | beq | bne | blez | bgtz | bltz | bgez
deriving DecidableEq

inductive VecOpInsn
  | vmulf | vmudl | vmudm | vmudn | vmudh | vmacf | vmadm | vmadn | vmadh
  | vadd | vsub | vaddc | vsar | vge | vcl | vand | vxor
deriving DecidableEq

inductive VecMemInsn
  | lsv | llv | ldv | lqv | lrv | ssv | slv | sdv | sqv
deriving DecidableEq

inductive InsnClass
  | rType (o : RTypeInsn)
  | iType (o : ITypeInsn)
  | mem (o : MemInsn)
  | mfc0 | mtc0 | mfc2 | mtc2
  | vecOp (o : VecOpInsn)
  | vecMem (o : VecMemInsn)
  | break_
  | branch (o : IBranchTypeInsn)
  | j | jal | jr | jalr
deriving DecidableEq

structure RspInsn where
  cls : InsnClass
  inst : Word
  addr : Word
deriving DecidableEq

namespace RspInsn

def isControl (i : RspInsn) : Bool :=
  match i.cls with
  | .branch _ | .j | .jal | .jr | .jalr => true
  | _ => false

def isBreak (i : RspInsn) : Bool := i.cls = .break_

/-- The words both engines run straight through. -/
def isStraight (i : RspInsn) : Bool := !i.isControl && !i.isBreak

def isMem (i : RspInsn) : Bool :=
  match i.cls with
  | .mem _ | .vecMem _ => true
  | _ => false

/-- Address past the delay slot: `ntAddr`, and the link of a call. -/
def link (i : RspInsn) : Word := (i.addr + 8) &&& 0xffc

def tAddr (i : RspInsn) : Word :=
  match i.cls with
  | .branch _ => (i.addr + 4 + i.inst.simm <<< 2) &&& 0xffc
  | _ => (i.inst <<< 2) &&& 0xffc

def staticTargets (i : RspInsn) : List Word :=
  match i.cls with
  | .branch _ | .j | .jal => [i.tAddr]
  | _ => []

def fallsThrough (i : RspInsn) : Bool :=
  match i.cls with
  | .j | .jal | .jr | .jalr => false
  | _ => true

def isCall (i : RspInsn) : Bool := i.cls = .jal
def isIndirect (i : RspInsn) : Bool := i.cls = .jr || i.cls = .jalr
def makesLinkRoot (i : RspInsn) : Bool := i.cls = .jalr

def decodeSpecial (fn : BitVec 6) : Option InsnClass :=
  match fn with
  | 0x00 => some (.iType .sll)
  | 0x02 => some (.iType .srl)
  | 0x03 => some (.iType .sra)
  | 0x04 => some (.rType .sllv)
  | 0x06 => some (.rType .srlv)
  | 0x07 => some (.rType .srav)
  | 0x08 => some .jr
  | 0x09 => some .jalr
  | 0x0d => some .break_
  | 0x20 | 0x21 => some (.rType .add)
  | 0x22 | 0x23 => some (.rType .sub)
  | 0x24 => some (.rType .and)
  | 0x25 => some (.rType .or)
  | 0x26 => some (.rType .xor)
  | 0x27 => some (.rType .nor)
  | 0x2a => some (.rType .slt)
  | 0x2b => some (.rType .sltu)
  | _ => none

def decodeVecOp (fn : BitVec 6) : Option VecOpInsn :=
  match fn with
  | 0x00 => some .vmulf
  | 0x04 => some .vmudl
  | 0x05 => some .vmudm
  | 0x06 => some .vmudn
  | 0x07 => some .vmudh
  | 0x08 => some .vmacf
  | 0x0d => some .vmadm
  | 0x0e => some .vmadn
  | 0x0f => some .vmadh
  | 0x10 => some .vadd
  | 0x11 => some .vsub
  | 0x14 => some .vaddc
  | 0x1d => some .vsar
  | 0x23 => some .vge
  | 0x24 => some .vcl
  | 0x28 => some .vand
  | 0x2c => some .vxor
  | _ => none

def decodeVecLoad (rd : BitVec 5) : Option VecMemInsn :=
  match rd with
  | 1 => some .lsv
  | 2 => some .llv
  | 3 => some .ldv
  | 4 => some .lqv
  | 5 => some .lrv
  | _ => none

def decodeVecStore (rd : BitVec 5) : Option VecMemInsn :=
  match rd with
  | 1 => some .ssv
  | 2 => some .slv
  | 3 => some .sdv
  | 4 => some .sqv
  | _ => none

def decodeClass (w : Word) : Option InsnClass :=
  match w.op with
  | 0x00 => decodeSpecial w.fn
  | 0x01 =>
    if w.rt = 0 then some (.branch .bltz)
    else if w.rt = 1 then some (.branch .bgez)
    else none
  | 0x02 => some .j
  | 0x03 => some .jal
  | 0x04 => some (.branch .beq)
  | 0x05 => some (.branch .bne)
  | 0x06 => some (.branch .blez)
  | 0x07 => some (.branch .bgtz)
  | 0x08 | 0x09 => some (.iType .addi)
  | 0x0a => some (.iType .slti)
  | 0x0b => some (.iType .sltiu)
  | 0x0c => some (.iType .andi)
  | 0x0d => some (.iType .ori)
  | 0x0e => some (.iType .xori)
  | 0x0f => some (.iType .lui)
  | 0x10 =>
    if w.rs = 0 then some .mfc0
    else if w.rs = 4 then some .mtc0
    else none
  | 0x12 =>
    if w.isVecOp = false then
      if w.rs = 0 then some .mfc2
      else if w.rs = 4 then some .mtc2
      else none
    else (decodeVecOp w.fn).map .vecOp
  | 0x20 => some (.mem .lb)
  | 0x21 => some (.mem .lh)
  | 0x23 => some (.mem .lw)
  | 0x24 => some (.mem .lbu)
  | 0x25 => some (.mem .lhu)
  | 0x28 => some (.mem .sb)
  | 0x29 => some (.mem .sh)
  | 0x2b => some (.mem .sw)
  | 0x32 => (decodeVecLoad w.rd).map .vecMem
  | 0x3a => (decodeVecStore w.rd).map .vecMem
  | _ => none

/-- `none` when the word is not an instruction the translator implements. -/
def decode (inst addr : Word) : Option RspInsn :=
  (decodeClass inst).map fun cls => ⟨cls, inst, addr⟩

end RspInsn

namespace RTypeInsn

def doOp (o : RTypeInsn) (a b : Word) : Word :=
  match o with
  | .add => a + b
  | .sub => a - b
  | .and => a &&& b
  | .or => a ||| b
  | .xor => a ^^^ b
  | .nor => ~~~(a ||| b)
  | .slt => boolWord (a.slt b)
  | .sltu => boolWord (a.ult b)
  | .sllv => b <<< (a &&& 31)
  | .srlv => b >>> (a &&& 31)
  | .srav => b.sshiftRight (a &&& 31).toNat

end RTypeInsn

namespace Frame

def effAddr (f : Frame) (w : Word) : Word := f.getGPR w.rs + w.simm

def iType (f : Frame) (w : Word) (o : ITypeInsn) : Frame :=
  match o with
  | .sll => f.setGPR w.rd (f.getGPR w.rt <<< w.sa.setWidth 32)
  | .srl => f.setGPR w.rd (f.getGPR w.rt >>> w.sa.setWidth 32)
  | .sra => f.setGPR w.rd ((f.getGPR w.rt).sshiftRight (w.sa.setWidth 32).toNat)
  | .addi => f.setGPR w.rt (f.effAddr w)
  | .slti => f.setGPR w.rt (boolWord ((f.getGPR w.rs).slt w.simm))
  | .sltiu => f.setGPR w.rt (boolWord ((f.getGPR w.rs).ult w.simm))
  | .andi => f.setGPR w.rt (f.getGPR w.rs &&& w.uimm)
  | .ori => f.setGPR w.rt (f.getGPR w.rs ||| w.uimm)
  | .xori => f.setGPR w.rt (f.getGPR w.rs ^^^ w.uimm)
  | .lui => f.setGPR w.rt (w.uimm <<< 16)

def memIR (f : Frame) (w : Word) (o : MemInsn) : Frame :=
  let ea := f.effAddr w
  match o with
  | .lb => f.setGPR w.rt (((f.loadMem ea 1).setWidth 8).signExtend 32)
  | .lbu => f.setGPR w.rt (f.loadMem ea 1)
  | .lh => f.setGPR w.rt (((f.loadMem ea 2).setWidth 16).signExtend 32)
  | .lhu => f.setGPR w.rt (f.loadMem ea 2)
  | .lw => f.setGPR w.rt (f.loadMem ea 4)
  | .sb => f.storeMem ea (f.getGPR w.rt) 1
  | .sh => f.storeMem ea (f.getGPR w.rt) 2
  | .sw => f.storeMem ea (f.getGPR w.rt) 4

def wideS (x : Lanes 8 16) : Lanes 8 64 := Lanes.sext 64 x
def wideU (x : Lanes 8 16) : Lanes 8 64 := Lanes.zext 64 x

def withMid (f : Frame) (a : Lanes 8 64) : Frame × Lanes 8 16 := (f.setAcc a, satMid a)
def withLow (f : Frame) (a : Lanes 8 64) : Frame × Lanes 8 16 := (f.setAcc a, clampLow a)

/-- vadd and vsub: `combine` twice, with the carry from VCO. -/
def vaddIR (f : Frame) (combine : Lanes 8 64 → Lanes 8 64 → Lanes 8 64) (s t : Lanes 8 16) :
    Frame × Lanes 8 16 :=
  let carry := Mask.zext 64 (f.getFlag .vcoL)
  let x := combine (combine (wideS s) (wideS t)) carry
  let hi := Lanes.and f.acc (splat64 (~~~0xffff))
  let f := f.setAcc (Lanes.or hi (Lanes.and x (splat64 0xffff)))
  ((f.clearFlag .vcoL).clearFlag .vcoH, clampLanes x)

def doOp (f : Frame) (o : VecOpInsn) (e : BitVec 4) (s t : Lanes 8 16) : Frame × Lanes 8 16 :=
  match o with
  | .vmulf =>
    let p := Lanes.shl (Lanes.mul (wideS s) (wideS t)) (splat64 1)
    f.withMid (sext48 (Lanes.add p (splat64 0x8000)))
  | .vmudl => f.withLow (Lanes.lshr (Lanes.mul (wideU s) (wideU t)) (splat64 16))
  | .vmudm => f.withMid (sext48 (Lanes.mul (wideS s) (wideU t)))
  | .vmudn => f.withLow (sext48 (Lanes.mul (wideU s) (wideS t)))
  | .vmudh => f.withMid (sext48 (Lanes.shl (Lanes.mul (wideS s) (wideS t)) (splat64 16)))
  | .vmacf =>
    let p := Lanes.shl (Lanes.mul (wideS s) (wideS t)) (splat64 1)
    f.withMid (sext48 (Lanes.add f.acc p))
  | .vmadm => f.withMid (sext48 (Lanes.add f.acc (Lanes.mul (wideS s) (wideU t))))
  | .vmadn => f.withLow (sext48 (Lanes.add f.acc (Lanes.mul (wideU s) (wideS t))))
  | .vmadh =>
    let p := Lanes.shl (Lanes.mul (wideS s) (wideS t)) (splat64 16)
    f.withMid (sext48 (Lanes.add f.acc p))
  | .vadd => f.vaddIR Lanes.add s t
  | .vsub => f.vaddIR Lanes.sub s t
  | .vaddc =>
    let x := Lanes.add (wideU s) (wideU t)
    let res := Lanes.trunc 16 x
    let f := f.setAccLow res
    let f := f.setFlag .vcoL (Lanes.icmpNe (Lanes.and x (splat64 0x10000)) (splat64 0))
    (f.clearFlag .vcoH, res)
  | .vsar =>
    -- `e` picks the accumulator slice: 8 high, 9 middle, 10 low
    let slice := Lanes.ashr f.acc (splat64 (BitVec.ofNat 64 (16 * (10 - e.toNat))))
    (f, if 8 ≤ e ∧ e ≤ 10 then Lanes.trunc 16 slice else splat16 0)
  | .vge =>
    let both := Mask.and (f.getFlag .vcoH) (f.getFlag .vcoL)
    let ge := Mask.or (Lanes.icmpSgt s t) (Mask.and (Lanes.icmpEq s t) (Mask.not both))
    let res := Lanes.select ge s t
    let f := ((f.setAccLow res).setFlag .vccL ge).clearFlag .vccH
    ((f.clearFlag .vcoL).clearFlag .vcoH, res)
  | .vcl =>
    let vcoL := f.getFlag .vcoL
    let nH := Mask.not (f.getFlag .vcoH)
    let sum : Lanes 8 32 := Lanes.add (Lanes.zext 32 s) (Lanes.zext 32 t)
    let le := Mask.select (f.getFlag .vce) (Lanes.icmpUle sum (Lanes.splat 0x10000))
      (Lanes.icmpEq sum (Lanes.splat 0))
    let vccL := Mask.select (Mask.and vcoL nH) le (f.getFlag .vccL)
    let geu := Lanes.icmpUge s t
    let vccH := Mask.select (Mask.and (Mask.not vcoL) nH) geu (f.getFlag .vccH)
    let rCarry := Lanes.select vccL (Lanes.neg t) s
    let rPlain := Lanes.select vccH t s
    let res := Lanes.select vcoL rCarry rPlain
    let f := ((f.setAccLow res).setFlag .vccL vccL).setFlag .vccH vccH
    (((f.clearFlag .vcoL).clearFlag .vcoH).clearFlag .vce, res)
  | .vand =>
    let res := Lanes.and s t
    (f.setAccLow res, res)
  | .vxor =>
    let res := Lanes.xor s t
    (f.setAccLow res, res)

def vecOpIR (f : Frame) (w : Word) (o : VecOpInsn) : Frame :=
  let (f', res) := f.doOp o w.vecE (f.getVec w.rd) (f.vtSelect w.rt w.vecE)
  f'.setVec w.sa res

def getByte (x : Lanes 8 16) (k : ℕ) : Word :=
  let lane : Word := (x (Rsp.byteLane k)).setWidth 32
  (if k % 2 = 1 then lane else lane >>> (8 : Word)) &&& 0xff

def setByte (x : Lanes 8 16) (k : ℕ) (b8 : Word) : Lanes 8 16 :=
  let lane : Word := (x (Rsp.byteLane k)).setWidth 32
  let byte := b8 &&& 0xff
  let n := if k % 2 = 1 then (lane &&& 0xff00) ||| byte else (lane &&& 0x00ff) ||| byte <<< (8 : Word)
  Function.update x (Rsp.byteLane k) (n.setWidth 16)

def mfc2IR (f : Frame) (w : Word) : Frame :=
  let e := w.byteE.toNat
  let v := f.getVec w.rd
  let x := getByte v e <<< (8 : Word) ||| getByte v (e + 1)
  f.setGPR w.rt ((x.setWidth 16).signExtend 32)

def mtc2IR (f : Frame) (w : Word) : Frame :=
  let e := w.byteE.toNat
  let x := f.getGPR w.rt
  let v := setByte (f.getVec w.rd) e (x >>> (8 : Word))
  f.setVec w.rd (if e ≠ 15 then setByte v (e + 1) x else v)

def vecEa (f : Frame) (w : Word) (shift : ℕ) : Word := f.getGPR w.rs + w.offs <<< shift

def vecMemIR (f : Frame) (w : Word) (o : VecMemInsn) : Option Frame :=
  let e := w.byteE.toNat
  match o with
  | .lsv => f.vecLoad w w.rs w.rt (f.vecEa w 1) e 2 .fixed
  | .llv => f.vecLoad w w.rs w.rt (f.vecEa w 2) e 4 .fixed
  | .ldv => f.vecLoad w w.rs w.rt (f.vecEa w 3) e 8 .fixed
  | .lqv => f.vecLoad w w.rs w.rt (f.vecEa w 4) e 16 .rowLeft
  | .lrv => f.vecLoad w w.rs w.rt (f.vecEa w 4) e 16 .rowRight
  | .ssv => f.vecStore w w.rs w.rt (f.vecEa w 1) e 2 .fixed
  | .slv => f.vecStore w w.rs w.rt (f.vecEa w 2) e 4 .fixed
  | .sdv => f.vecStore w w.rs w.rt (f.vecEa w 3) e 8 .fixed
  | .sqv => f.vecStore w w.rs w.rt (f.vecEa w 4) e 16 .rowLeft

end Frame

/-- Where the IR of one instruction leads: on, out through the exit block with a pc in
`retSlot`, or into a helper that stops the program. -/
inductive IrOut
  | cont (f : Frame)
  | exit (pc : Word) (f : Frame)
  | die

namespace IrOut

def ofOption : Option Frame → IrOut
  | some f => .cont f
  | none => .die

def spill : IrOut → Option Rsp
  | .cont f => some f.spill
  | .exit _ f => some f.spill
  | .die => none

end IrOut

namespace Frame

/-- `rspbt_mtc0`: whether the write replaced instruction memory. -/
def rspbtMtc0 (c : Rsp) (rd : BitVec 5) (x : Word) : Option (Rsp × Bool) :=
  (c.mtc0 rd x).map fun c' => (c', c'.imemGen != c.imemGen)

def mtc0IR (f : Frame) (w addr : Word) : IrOut :=
  match rspbtMtc0 f.c w.rd (f.getGPR w.rt) with
  | none => .die
  | some (c, changed) =>
    if changed then .exit ((addr + 4) &&& 0xffc) { f with c := c } else .cont { f with c := c }

end Frame

def RspInsn.generateIR (i : RspInsn) (f : Frame) : IrOut :=
  let w := i.inst
  match i.cls with
  | .rType o => .cont (f.setGPR w.rd (o.doOp (f.getGPR w.rs) (f.getGPR w.rt)))
  | .iType o => .cont (f.iType w o)
  | .mem o => .cont (f.memIR w o)
  | .mfc0 => .ofOption ((f.c.mfc0 w.rd).map (f.setGPR w.rt))
  | .mtc0 => f.mtc0IR w i.addr
  | .mfc2 => .cont (f.mfc2IR w)
  | .mtc2 => .cont (f.mtc2IR w)
  | .vecOp o => .cont (f.vecOpIR w o)
  | .vecMem o => .ofOption (f.vecMemIR w o)
  | .break_ | .branch _ | .j | .jal | .jr | .jalr => .die

end RspBt
