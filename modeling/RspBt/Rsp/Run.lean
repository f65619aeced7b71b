import RspBt.Lib.Loop
import RspBt.Rsp.Dma
import RspBt.Rsp.Cop2
import RspBt.Rsp.VecMem

namespace RspBt

abbrev Image := Fin 0x1000 → Byte

def Image.byte (img : Image) (n : ℕ) : Byte := img (Fin.ofNat 0x1000 n)

/-- The word at `a & 0xffc`. -/
def fetch (img : Image) (a : Word) : Word :=
  let n := (a &&& 0xffc).toNat
  img.byte n ++ img.byte (n + 1) ++ img.byte (n + 2) ++ img.byte (n + 3)

namespace Rsp

def imem (s : Rsp) : Image := fun i => s.mem (0x1000 + i.val)

def withCode (code : List Byte) : Rsp :=
  { init with mem := fun a => if 0x1000 ≤ a then code.getD (a - 0x1000) 0 else 0 }

/-- Opcode 0: the value written to `rd`, from `a = r[rs]` and `b = r[rt]`. -/
def specialOp (fn : BitVec 6) (sa : BitVec 5) (a b : Word) : Option Word :=
  match fn with
  | 0x00 => some (b <<< sa)
  | 0x02 => some (b >>> sa)
  | 0x03 => some (b.sshiftRight sa.toNat)
  | 0x04 => some (b <<< (a &&& 31))
  | 0x06 => some (b >>> (a &&& 31))
  | 0x07 => some (b.sshiftRight (a &&& 31).toNat)
  | 0x20 | 0x21 => some (a + b)
  | 0x22 | 0x23 => some (a - b)
  | 0x24 => some (a &&& b)
  | 0x25 => some (a ||| b)
  | 0x26 => some (a ^^^ b)
  | 0x27 => some (~~~(a ||| b))
  | 0x2a => some (boolWord (a.slt b))
  | 0x2b => some (boolWord (a.ult b))
  | _ => none

def cop0 (s : Rsp) (w : Word) : Option Rsp :=
  if w.rs = 0 then (s.mfc0 w.rd).map (s.setR w.rt)
  else if w.rs = 4 then s.mtc0 w.rd (s.r w.rt)
  else none

/-- The switch on what is no transfer and no `break`; `none` is `RSP_DIE`. -/
def straight (s : Rsp) (w : Word) : Option Rsp :=
  let a := s.r w.rs
  let ea := s.r w.rs + w.simm
  match w.op with
  | 0x00 => (specialOp w.fn w.sa a (s.r w.rt)).map (s.setR w.rd)
  | 0x08 | 0x09 => some (s.setR w.rt (a + w.simm))
  | 0x0a => some (s.setR w.rt (boolWord (a.slt w.simm)))
  | 0x0b => some (s.setR w.rt (boolWord (a.ult w.simm)))
  | 0x0c => some (s.setR w.rt (a &&& w.uimm))
  | 0x0d => some (s.setR w.rt (a ||| w.uimm))
  | 0x0e => some (s.setR w.rt (a ^^^ w.uimm))
  | 0x0f => some (s.setR w.rt (w.uimm <<< 16))
  | 0x10 => s.cop0 w
  | 0x12 => s.cop2 w
  | 0x20 => some (s.setR w.rt ((s.rd8 ea).signExtend 32))
  | 0x21 => some (s.setR w.rt ((s.rd16 ea).signExtend 32))
  | 0x23 => some (s.setR w.rt (s.rd32 ea))
  | 0x24 => some (s.setR w.rt ((s.rd8 ea).setWidth 32))
  | 0x25 => some (s.setR w.rt ((s.rd16 ea).setWidth 32))
  | 0x28 => some (s.wr8 ea ((s.r w.rt).setWidth 8))
  | 0x29 => some (s.wr16 ea ((s.r w.rt).setWidth 16))
  | 0x2b => some (s.wr32 ea (s.r w.rt))
  | 0x32 => s.lwc2 w
  | 0x3a => s.swc2 w
  | _ => none

/-- What the switch leaves: the machine, `after`, and `halted`. -/
structure Flow where
  s : Rsp
  after : Word
  halted : Bool

def switch (s : Rsp) (nextPc w : Word) : Option Flow :=
  let after := (nextPc + 4) &&& 0xffc
  let link := (nextPc + 4) &&& 0xffc
  let btgt := (nextPc + w.simm <<< 2) &&& 0xffc
  let a := s.r w.rs
  let branch (taken : Bool) : Option Flow := some ⟨s, if taken then btgt else after, false⟩
  match w.op with
  | 0x00 =>
    match w.fn with
    | 0x08 => some ⟨s, a &&& 0xffc, false⟩
    | 0x09 => some ⟨s.setR w.rd link, a &&& 0xffc, false⟩
    | 0x0d => some ⟨s, after, true⟩
    | _ => (s.straight w).map fun s' => ⟨s', after, false⟩
  | 0x01 =>
    let ltz := a.slt 0
    let s' := if w.rt.getLsbD 4 then s.setR 31 link else s
    some ⟨s', if (if w.rt.getLsbD 0 then !ltz else ltz) then btgt else after, false⟩
  | 0x02 => some ⟨s, (w <<< 2) &&& 0xffc, false⟩
  | 0x03 => some ⟨s.setR 31 link, (w <<< 2) &&& 0xffc, false⟩
  | 0x04 => branch (a == s.r w.rt)
  | 0x05 => branch (a != s.r w.rt)
  | 0x06 => branch (a.sle 0)
  | 0x07 => branch ((0 : Word).slt a)
  | _ => (s.straight w).map fun s' => ⟨s', after, false⟩

end Rsp

namespace RspT

/-- One turn of `while(not(halted))`; the second component is `next_pc`. -/
def turn (st : RspT × Word) : Option ((RspT × Word) ⊕ RspT) :=
  let (c, nextPc) := st
  if c.halted then some (.inr c)
  else
    match c.core.switch nextPc (fetch c.core.imem c.pc) with
    | none => none
    | some f =>
      let n := c.nInsns + 1
      -- the runaway guard counts the lifetime of the machine, not of the run
      if 1 <<< 40 < n then none
      else some (.inl ({ core := f.s.zeroR0, pc := nextPc, halted := f.halted, nInsns := n }, f.after))

def start (c : RspT) (startPc : Word) : RspT × Word :=
  let pc := startPc &&& 0xffc
  ({ c with pc := pc, halted := false }, (pc + 4) &&& 0xffc)

/-- `rsp_t::run`, for at most `fuel` turns. -/
def run (fuel : ℕ) (c : RspT) (startPc : Word) : Option RspT := Lib.loop turn fuel (c.start startPc)

end RspT

end RspBt
