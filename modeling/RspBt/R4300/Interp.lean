import RspBt.R4300.EmitBody
import RspBt.R4300.Same

namespace RspBt.R4300

open Lib

structure StateT where
  m : Mach
  pc : BitVec 64

/-- At the same address, and equal but for the scratch word. -/
structure Alike (q q' : StateT) : Prop where
  pc : q.pc = q'.pc
  m : Same q.m q'.m

/-- What an instruction does to the activations: a call starts one and a return ends one. -/
inductive Event
  | plain | call | ret
deriving DecidableEq

/-- A guest program under the interpreter, an instruction with its delay slot at a time. -/
structure Guest where
  execMips : StateT → StateT
  event : StateT → Event

namespace StateT

variable (s : StateT)

def sp : BitVec 64 := s.m.gpr 29
def ra : BitVec 64 := s.m.gpr 31

end StateT

/-- One turn of the loop, on the state, the instructions counted and the budget. -/
def callBody (g : Guest) (link : Word) (st : StateT × ℕ × ℕ) :
    Option ((StateT × ℕ × ℕ) ⊕ (StateT × ℕ)) :=
  let (s, insns, budget) := st
  if lo32 s.pc ≠ link then
    if budget - 1 = 0 then none
    else some (.inl (g.execMips s, insns + 1, budget - 1))
  else some (.inr (s, insns))

/-- The state when the pc is at the link, and how many instructions that took.  `none` is the
exit of the program when the budget is used up. -/
def r4300btCall (g : Guest) (s : StateT) (target link : Word) : Option (StateT × ℕ) :=
  loop (callBody g link) (2 ^ 32) ({ s with pc := sext32 target }, 0, 2 ^ 32)

namespace Guest

variable (g : Guest)

def after (s : StateT) (n : ℕ) : StateT := g.execMips^[n] s

/-- How many calls deep the activation entered at `s` is after `n` instructions; `none` once it
has returned. -/
def nesting (s : StateT) : ℕ → Option ℕ
  | 0 => some 0
  | n + 1 =>
    (nesting s n).bind fun d =>
      match g.event (g.after s n) with
      | .plain => some d
      | .call => some (d + 1)
      | .ret => if d = 0 then none else some (d - 1)

def ReturnsAfter (s : StateT) (n : ℕ) : Prop := g.nesting s n = none ∧ ∀ i < n, g.nesting s i ≠ none

/-- The activation entered at `s` returns to its `$31`, with its `$sp`. -/
def O32 (s : StateT) : Prop :=
  ∀ n, g.ReturnsAfter s n → (g.after s n).pc = s.ra ∧ (g.after s n).sp = s.sp

def Follows (s : StateT) : Prop :=
  g.O32 s ∧ ∀ i, g.event (g.after s i) = .call → g.O32 (g.after s (i + 1))

end Guest

def transferTo (pc insn : Word) (m : Mach) : Word :=
  if insn.op = 0x00 then lo32 (m.getGPR insn.rs)
  else if insn.op = 0x02 ∨ insn.op = 0x03 then
    (pc &&& 0xf0000000) ||| ((insn &&& 0x3ffffff) <<< 2)
  else if branchCond insn m then pc + 4 + insn.simm <<< 2
  else pc + 8

def linked (pc insn : Word) (m : Mach) : Mach :=
  if isLink insn then m.setGPR none 31 (sext32 (pc + 8)) else m

/-- A transfer with the code of its slot, which a branch-likely that is not taken leaves out. -/
def execCtl (pc insn : Word) (slot : Emit) (m : Mach) : StateT where
  m :=
    if isLikely insn ∧ branchCond insn m = false then linked pc insn m
    else slot none (linked pc insn m)
  pc := sext32 (transferTo pc insn m)

/-- REGIMM has others besides bltz, bgez and their likely forms, which are not translated. -/
def IsTransfer (insn : Word) : Prop := isCtl insn = true ∧ ¬ (insn.op = 0x01 ∧ 3 < insn.rt)

/-- The interpreter at `q` executes the words that are translated, and the transfers whose slots
are.  Nothing is taken of others. -/
structure Guest.Execs (g : Guest) (e : Env) (fp : FpUnit) (q : StateT) : Prop where
  plain : ∀ insn code, e.read (lo32 q.pc) = some insn → isCtl insn = false →
    emitOne fp insn = some code →
    Alike (g.execMips q) ⟨code none q.m, sext32 (lo32 q.pc + 4)⟩
  transfer : ∀ insn slot code, e.read (lo32 q.pc) = some insn → IsTransfer insn →
    e.read (lo32 q.pc + 4) = some slot → emitOne fp slot = some code →
    Alike (g.execMips q) (execCtl (lo32 q.pc) insn code q.m)

/-- And a link is written whatever was in `$31`, of any slot. -/
structure Guest.Mips (g : Guest) (e : Env) (fp : FpUnit) (q : StateT) : Prop
    extends g.Execs e fp q where
  relink : ∀ insn m', e.read (lo32 q.pc) = some insn → isLink insn →
    ¬ (insn.op = 0x00 ∧ insn.rs = 31) → Same (linked (lo32 q.pc) insn q.m) m' →
    Alike (g.execMips q) (g.execMips ⟨m', q.pc⟩)

def eventOf (insn : Word) : Event :=
  if isLink insn then .call
  else if insn.op = 0x00 ∧ insn.fn = 0x08 ∧ insn.rs = 31 then .ret
  else .plain

/-- Of the words that are translated, jal and jalr call, and `jr $31` returns. -/
structure Guest.Events (g : Guest) (e : Env) (fp : FpUnit) (q : StateT) : Prop where
  plain : ∀ insn code, e.read (lo32 q.pc) = some insn → isCtl insn = false →
    emitOne fp insn = some code → g.event q = .plain
  transfer : ∀ insn, e.read (lo32 q.pc) = some insn → IsTransfer insn → g.event q = eventOf insn

namespace Env

variable (e : Env) (fp : FpUnit) (rest : StateT → StateT)

/-- The translator has code for what the interpreter is at, with its slot. -/
def Translated (q : StateT) : Prop :=
  ∃ insn, e.read (lo32 q.pc) = some insn ∧
    ((isCtl insn = false ∧ ∃ code, emitOne fp insn = some code) ∨
      (IsTransfer insn ∧ ∃ slot code, e.read (lo32 q.pc + 4) = some slot ∧
        emitOne fp slot = some code))

/-- An interpreter that is `rest` where there is no code to go by. -/
def guest : Guest where
  execMips q :=
    match e.read (lo32 q.pc) with
    | none => rest q
    | some insn =>
      if isCtl insn then
        match e.read (lo32 q.pc + 4) with
        | none => rest q
        | some slot =>
          if insn.op = 0x01 ∧ 3 < insn.rt then rest q
          else
            match emitOne fp slot with
            | some code => execCtl (lo32 q.pc) insn code q.m
            | none => rest q
      else
        match emitOne fp insn with
        | some code => ⟨code none q.m, sext32 (lo32 q.pc + 4)⟩
        | none => rest q
  event q :=
    match e.read (lo32 q.pc) with
    | none => .plain
    | some insn => eventOf insn

variable {e fp rest} {q : StateT}

theorem guest_rest (h : ¬ e.Translated fp q) : (e.guest fp rest).execMips q = rest q := by
  simp only [guest]
  cases hr : e.read (lo32 q.pc) with
  | none => rfl
  | some insn =>
    cases hctl : isCtl insn with
    | false =>
      simp only [hctl, Bool.false_eq_true, if_false]
      cases hone : emitOne fp insn with
      | none => rfl
      | some code => exact absurd ⟨insn, hr, .inl ⟨hctl, code, hone⟩⟩ h
    | true =>
      simp only [hctl, if_true]
      cases hslot : e.read (lo32 q.pc + 4) with
      | none => rfl
      | some slot =>
        by_cases hop : insn.op = 0x01 ∧ 3 < insn.rt
        · exact if_pos hop
        · simp only [if_neg hop]
          cases hone : emitOne fp slot with
          | none => rfl
          | some code => exact absurd ⟨insn, hr, .inr ⟨⟨hctl, hop⟩, slot, code, hslot, hone⟩⟩ h

theorem guest_unread (h : e.read (lo32 q.pc) = none) : (e.guest fp rest).execMips q = rest q := by
  refine guest_rest ?_
  rintro ⟨insn, hr, -⟩
  rw [h] at hr
  cases hr

end Env

end RspBt.R4300
