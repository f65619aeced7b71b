import RspBt.R4300.EmitOne

namespace RspBt.R4300

/-- What `compileAll` hands to the code of one function. -/
structure Emitter where
  cfg : Env
  fp : FpUnit
  /-- Every translated entry. -/
  decls : Word → Bool

/-- The allocas, and the GPRs of `state_t` as they were last spilled. -/
structure Frame where
  m : Mach
  saved : BitVec 5 → BitVec 64

namespace Frame

variable (f : Frame)

def state : Mach := { f.m with gpr := f.saved }

def spillGPRs : Frame := { f with saved := fun r => if r = 0 then f.saved 0 else f.m.gpr r }

def reloadGPRs : Frame :=
  { f with m := { f.m with gpr := fun r => if r = 0 then f.m.gpr 0 else f.saved r } }

def resume (s : Mach) : Frame := { m := { s with gpr := f.m.gpr }, saved := s.gpr }

def run (code : Emit) (pred : Option Bool) : Frame := { f with m := code pred f.m }

/-- `$31` is linked whatever the rd field of a jalr says. -/
def link (x : Word) : Frame := { f with m := f.m.setGPR none 31 (sext32 x) }

end Frame

def isCtl (insn : Word) : Bool :=
  insn.op = 0x02 ∨ insn.op = 0x03 ∨ (0x04 ≤ insn.op ∧ insn.op ≤ 0x07) ∨ insn.op = 0x01 ∨
    (0x14 ≤ insn.op ∧ insn.op ≤ 0x17) ∨ (insn.op = 0x11 ∧ insn.rs = 0x08) ∨
    (insn.op = 0x00 ∧ (insn.fn = 0x08 ∨ insn.fn = 0x09))

def isLikely (insn : Word) : Bool :=
  (0x14 ≤ insn.op ∧ insn.op ≤ 0x17) ∨ (insn.op = 0x01 ∧ insn.rt &&& 2 ≠ 0) ∨
    (insn.op = 0x11 ∧ insn.rt &&& 2 ≠ 0)

def isLink (insn : Word) : Bool := insn.op = 0x03 ∨ (insn.op = 0x00 ∧ insn.fn = 0x09)

/-- The condition of a branch, from the registers as they are before the slot runs. -/
def branchCond (insn : Word) (m : Mach) : Bool :=
  let vs := m.getGPR insn.rs
  match insn.op with
  | 0x04 | 0x14 => vs = m.getGPR insn.rt
  | 0x05 | 0x15 => vs ≠ m.getGPR insn.rt
  | 0x06 | 0x16 => vs.sle 0
  | 0x07 | 0x17 => (0 : BitVec 64).slt vs
  | 0x01 => if insn.rt &&& 1 = 0 then vs.slt 0 else (0 : BitVec 64).sle vs
  | 0x11 =>
    let bit := m.load .fcc &&& 1 <<< (insn >>> 18 &&& 7).toNat
    if insn.rt &&& 1 ≠ 0 then bit ≠ 0 else bit = 0
  | _ => false

inductive Next
  /-- The next word of the block. -/
  | word (f : Frame)
  /-- A branch to the block of an address. -/
  | branch (f : Frame) (a : Word)
  /-- `bailSlot` is set, and then the exit. -/
  | leave (f : Frame) (r : Word)
  /-- A call, of a translated entry or through the interpreter; then on at the link, or out. -/
  | call (f : Frame) (direct : Option Word) (target link : Word) (tail : Bool)

namespace Emitter

variable (t : Emitter)

/-- A slot of zero is not emitted. -/
def emitSlot (slot : Word) : Option Emit :=
  if slot = 0 then some fun _ m => m else emitOne t.fp slot

def direct (target : Word) : Option Word := if t.decls target then some target else none

/-- Every target discovery saw at the site is compared against. -/
def indirect (target : Word) (tgts : List Word) : Option Word :=
  tgts.find? fun x => t.decls x && target == x

def emitLeave (gf : Func) (b : Block) (pc insn jrTarget : Word) (cond : Bool) (f : Frame) : Next :=
  let link := pc + 8
  let jtgt := (pc &&& 0xf0000000) ||| ((insn &&& 0x3ffffff) <<< 2)
  if insn.op = 0x02 then
    if jtgt ∈ gf.blocks.map Prod.fst then .branch f jtgt
    else .call f.spillGPRs (t.direct jtgt) jtgt link true
  else if insn.op = 0x03 then .call f.spillGPRs (t.direct jtgt) jtgt link false
  else if insn.op = 0x00 ∧ insn.fn = 0x09 then
    .call f.spillGPRs ((t.cfg.hints pc).bind (t.indirect jrTarget)) jrTarget link false
  else if insn.op = 0x00 then
    if insn.rs = 31 then .leave f 0
    else if jrTarget ∈ b.succs then .branch f jrTarget
    else .leave f.spillGPRs jrTarget
  else .branch f (if cond then pc + 4 + insn.simm <<< 2 else link)

def emitCtl (gf : Func) (b : Block) (pc insn : Word) (f : Frame) : Next :=
  match t.cfg.read (pc + 4) with
  | none => .leave f pc
  | some slot =>
    -- of REGIMM only bltz, bgez and their likely forms are translated
    if insn.op = 0x01 ∧ 3 < insn.rt then .leave f pc
    else
      let cond := branchCond insn f.m
      let jrTarget := lo32 (f.m.getGPR insn.rs)
      let f := if isLink insn then f.link (pc + 8) else f
      match t.emitSlot slot with
      | none => .leave f pc
      | some code =>
        t.emitLeave gf b pc insn jrTarget cond
          (f.run code (if isLikely insn then some cond else none))

/-- One turn of the loop over the words of a block, and the branch that closes it. -/
def emitWord (gf : Func) (b : Block) (pc : Word) (f : Frame) : Next :=
  if pc < b.end_ then
    match t.cfg.read pc with
    | none => .leave f pc
    | some insn =>
      if isCtl insn then t.emitCtl gf b pc insn f
      else
        match emitOne t.fp insn with
        | none => .leave f pc
        | some code => .word (f.run code none)
  else .branch f b.end_

end Emitter

structure Calls where
  /-- A translated function: `state_t` before and after, and what it returns. -/
  translated : Word → Mach → Mach → Word → Prop
  /-- `r4300bt_call`: the interpreter, from a target until control comes to the link. -/
  interp : Word → Word → Mach → Mach → Prop

/-- `emitCall` and `emitDirectCall`: a callee that bails is finished by the interpreter. -/
def Calls.Does (c : Calls) (direct : Option Word) (target link : Word) (s s' : Mach) : Prop :=
  match direct with
  | none => c.interp target link s s'
  | some entry => ∃ s1 r, c.translated entry s s1 r ∧ if r = 0 then s' = s1 else c.interp r link s1 s'

inductive Config
  /-- At the code of the word at `pc` of a block. -/
  | inside (b : Block) (pc : Word) (f : Frame)
  /-- At the exit, with `r` in `bailSlot`. -/
  | leaving (f : Frame) (r : Word)
  | returned (s : Mach) (r : Word)

namespace Func

variable (gf : Func)

/-- A branch to the block of an address.  The sweep at the end makes a block that has no code
return its address. -/
def blockFor (a : Word) (f : Frame) : Config :=
  match gf.blocks.lookup a with
  | some b => .inside b b.start f
  | none => .leaving f.spillGPRs a

def start (entry : Word) (s : Mach) : Config :=
  gf.blockFor entry (Frame.reloadGPRs ⟨s, s.gpr⟩)

end Func

inductive Step (t : Emitter) (gf : Func) (c : Calls) : Config → Config → Prop
  | word {b : Block} {pc : Word} {f f' : Frame} (h : t.emitWord gf b pc f = .word f') :
      Step t gf c (.inside b pc f) (.inside b (pc + 4) f')
  | branch {b : Block} {pc a : Word} {f f' : Frame} (h : t.emitWord gf b pc f = .branch f' a) :
      Step t gf c (.inside b pc f) (gf.blockFor a f')
  | leave {b : Block} {pc r : Word} {f f' : Frame} (h : t.emitWord gf b pc f = .leave f' r) :
      Step t gf c (.inside b pc f) (.leaving f' r)
  | call {b : Block} {pc target link : Word} {f f' : Frame} {direct : Option Word} {s : Mach}
      (h : t.emitWord gf b pc f = .call f' direct target link false)
      (hc : c.Does direct target link f'.state s) :
      Step t gf c (.inside b pc f) (gf.blockFor link (f'.resume s).reloadGPRs)
  | tailCall {b : Block} {pc target link : Word} {f f' : Frame} {direct : Option Word} {s : Mach}
      (h : t.emitWord gf b pc f = .call f' direct target link true)
      (hc : c.Does direct target link f'.state s) :
      Step t gf c (.inside b pc f) (.leaving (f'.resume s).reloadGPRs 0)
  | exit {f : Frame} {r : Word} : Step t gf c (.leaving f r) (.returned f.spillGPRs.state r)

end RspBt.R4300
