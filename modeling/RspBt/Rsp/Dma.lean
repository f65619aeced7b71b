import RspBt.Lib.Bytes
import RspBt.Rsp.State

namespace RspBt.Rsp

def dmaLen (lenReg : Word) : ℕ := ((lenReg &&& 0xfff ||| 7) + 1).toNat
def dmaCount (lenReg : Word) : ℕ := (((lenReg >>> 12) &&& 0xff) + 1).toNat
def dmaSkip (lenReg : Word) : ℕ := ((lenReg >>> 20) &&& 0xfff).toNat

structure DmaState where
  s : Rsp
  off : ℕ
  dram : ℕ

/-- `n`: a row never leaves its 4 KB bank. -/
def dmaRowLen (len off : ℕ) : ℕ := if off + len > 0x1000 then 0x1000 - off else len

def dmaRow (len skip bank : ℕ) (toRsp : Bool) (d : DmaState) : DmaState :=
  let n := dmaRowLen len d.off
  let s :=
    if toRsp then
      let s := { d.s with mem := Lib.memcpy d.s.mem (bank + d.off) d.s.rdram d.dram n }
      if bank = 0x1000 then { s with imemGen := s.imemGen + 1 } else s
    else { d.s with rdram := Lib.memcpy d.s.rdram d.dram d.s.mem (bank + d.off) n }
  { s := s, off := (d.off + n) % 0x1000, dram := (d.dram + n + skip) % 0x1000000 }

/-- `bank` is 0 for DMEM and `0x1000` for IMEM. -/
def dmaBank (s : Rsp) : ℕ := (s.spMemAddr &&& 0x1000).toNat

def dmaStart (s : Rsp) : DmaState :=
  { s := s, off := (s.spMemAddr &&& 0xff8).toNat, dram := (s.spDramAddr &&& 0xfffff8).toNat }

def dmaRows (s : Rsp) (lenReg : Word) (toRsp : Bool) : DmaState :=
  (dmaRow (dmaLen lenReg) (dmaSkip lenReg) s.dmaBank toRsp)^[dmaCount lenReg] s.dmaStart

def dma (s : Rsp) (lenReg : Word) (toRsp : Bool) : Rsp :=
  let d := s.dmaRows lenReg toRsp
  { d.s with
    spMemAddr := BitVec.ofNat 32 s.dmaBank ||| BitVec.ofNat 32 d.off
    spDramAddr := BitVec.ofNat 32 d.dram }

/-- SIG `i` sits at bit `7+i`; its clear/set pair is at bits `9+2i` and `10+2i`. -/
def statusSignal (x status : Word) (i : ℕ) : Word :=
  let bit : Word := 1 <<< (7 + i)
  let status := if x.getLsbD (9 + 2 * i) then status &&& ~~~bit else status
  if x.getLsbD (10 + 2 * i) then status ||| bit else status

def applyStatusWrite (s : Rsp) (x : Word) : Rsp :=
  { s with spStatus := (List.range 8).foldl (statusSignal x) s.spStatus }

def mfc0 (s : Rsp) (rd : BitVec 5) : Option Word :=
  match rd with
  | 0 => some s.spMemAddr
  | 1 => some s.spDramAddr
  | 2 | 3 => some 0xff8
  | 4 => some s.spStatus
  | 5 | 6 | 7 => some 0
  | 8 | 9 | 10 | 11 | 12 | 13 | 14 | 15 => some 0
  | _ => none

def mtc0 (s : Rsp) (rd : BitVec 5) (x : Word) : Option Rsp :=
  match rd with
  | 0 => some { s with spMemAddr := x &&& 0x1fff }
  | 1 => some { s with spDramAddr := x &&& 0xffffff }
  | 2 => some (s.dma x true)
  | 3 => some (s.dma x false)
  | 4 => some (s.applyStatusWrite x)
  | 7 => some s
  | 8 | 9 | 10 | 11 | 12 | 13 | 14 | 15 => some s
  | _ => none

def withRegs (s t : Rsp) : Rsp :=
  { t with
    mem := s.mem
    spMemAddr := s.spMemAddr
    spDramAddr := s.spDramAddr
    spStatus := s.spStatus
    imemGen := s.imemGen
    rdram := s.rdram }

theorem withRegs_self (s : Rsp) : s.withRegs s = s := rfl

theorem dmaRow_withRegs (len skip bank : ℕ) (toRsp : Bool) (t : Rsp) (d : DmaState) :
    dmaRow len skip bank toRsp { d with s := d.s.withRegs t } =
      { dmaRow len skip bank toRsp d with s := (dmaRow len skip bank toRsp d).s.withRegs t } := by
  simp only [dmaRow]
  split_ifs <;> rfl

theorem dma_withRegs (s t : Rsp) (lenReg : Word) (toRsp : Bool) :
    (s.withRegs t).dma lenReg toRsp = (s.dma lenReg toRsp).withRegs t := by
  have hrow : Function.Semiconj (fun d : DmaState => { d with s := d.s.withRegs t })
      (dmaRow (dmaLen lenReg) (dmaSkip lenReg) s.dmaBank toRsp)
      (dmaRow (dmaLen lenReg) (dmaSkip lenReg) s.dmaBank toRsp) :=
    fun d => (dmaRow_withRegs _ _ _ _ t d).symm
  have hrows := hrow.iterate_right (dmaCount lenReg) s.dmaStart
  have hd : (s.withRegs t).dmaRows lenReg toRsp =
      { s.dmaRows lenReg toRsp with s := (s.dmaRows lenReg toRsp).s.withRegs t } := hrows.symm
  simp only [dma, hd]
  rfl

theorem mtc0_withRegs (s t : Rsp) (rd : BitVec 5) (x : Word) :
    (s.withRegs t).mtc0 rd x = (s.mtc0 rd x).map fun s' => s'.withRegs t := by
  unfold mtc0
  split
  case h_3 => exact congrArg some (dma_withRegs s t x true)
  case h_4 => exact congrArg some (dma_withRegs s t x false)
  all_goals rfl

theorem mtc0_regs {s s' : Rsp} {rd : BitVec 5} {x : Word} (h : s.mtc0 rd x = some s') :
    s' = s'.withRegs s := by
  have hw := mtc0_withRegs s s rd x
  rw [withRegs_self, h] at hw
  exact Option.some.inj hw

theorem dmaRowLen_le {len off : ℕ} (h : off < 0x1000) : off + dmaRowLen len off ≤ 0x1000 := by
  unfold dmaRowLen
  split <;> omega

end RspBt.Rsp
