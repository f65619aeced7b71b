import RspBt.Lib.Loop
import RspBt.Lib.OrdSet
import RspBt.Rsp.State

namespace RspBt.R4300

open Lib

inductive Kind
  | fall | branch | likely | jump | call | jr | jalr | trap
deriving DecidableEq

structure Ctl where
  k : Kind
  /-- For branch, jump and call. -/
  target : Word
  /-- For jr and jalr: the register holding the target. -/
  reg : BitVec 5

/-- Everything that is not a branch or a jump falls through. -/
def decode (pc insn : Word) : Ctl :=
  let btgt := pc + 4 + insn.simm <<< 2
  let jtgt := (pc &&& 0xf0000000) ||| ((insn &&& 0x3ffffff) <<< 2)
  match insn.op with
  | 0x00 =>
    match insn.fn with
    | 0x08 => ⟨.jr, 0, insn.rs⟩
    | 0x09 => ⟨.jalr, 0, insn.rs⟩
    | 0x0c | 0x0d => ⟨.trap, 0, 0⟩
    | _ => ⟨.fall, 0, 0⟩
  | 0x01 =>
    if insn.rt &&& 0x0c = 0x00 ∨ insn.rt &&& 0x0c = 0x10 then
      ⟨if insn.rt &&& 2 ≠ 0 then .likely else .branch, btgt, 0⟩
    else ⟨.fall, 0, 0⟩
  | 0x02 => ⟨.jump, jtgt, 0⟩
  | 0x03 => ⟨.call, jtgt, 0⟩
  | 0x04 | 0x05 | 0x06 | 0x07 => ⟨.branch, btgt, 0⟩
  | 0x14 | 0x15 | 0x16 | 0x17 => ⟨.likely, btgt, 0⟩
  | 0x11 =>
    if insn.rs = 0x08 then ⟨if insn.rt &&& 2 ≠ 0 then .likely else .branch, btgt, 0⟩
    else ⟨.fall, 0, 0⟩
  | _ => ⟨.fall, 0, 0⟩

structure Env where
  /-- Nothing at an unmapped address. -/
  read : Word → Option Word
  hints : Word → Option (List Word)

namespace Env

variable (e : Env)

/-- One turn of the backward scan for the `sltiu` whose immediate is the bound. -/
def boundBody (pc q : Word) : Option (Word ⊕ Word) :=
  if pc ≤ q + 64 then
    match e.read q with
    | none => some (.inr 0)
    | some insn => if insn.op = 0x0b then some (.inr insn.uimm) else some (.inl (q - 4))
  else some (.inr 0)

/-- The table base so far, once the `lw` was found, and the register that feeds it. -/
structure Scan where
  base : Word
  reg : BitVec 5
  haveBase : Bool

/-- One turn of the backward scan from the jr: `none` is an unreadable word, and otherwise the
base, and the bound if the `lui` was reached. -/
def tableBody (n : ℕ) (jrPc : Word) (st : Scan × Word) :
    Option ((Scan × Word) ⊕ Option (Scan × Word)) :=
  let (s, pc) := st
  if jrPc ≤ pc + 64 then
    match e.read pc with
    | none => some (.inr none)
    | some insn =>
      if s.haveBase = false ∧ insn.op = 0x23 ∧ insn.rt = s.reg then
        some (.inl (⟨insn.simm, insn.rs, true⟩, pc - 4))
      else if s.haveBase ∧ insn.op = 0x0f ∧ insn.rt = s.reg then
        -- the index bound must appear before the table is built
        (loop (e.boundBody pc) n (pc - 4)).map fun count =>
          .inr (some ({ s with base := s.base + insn.uimm <<< 16 }, count))
      else some (.inl (s, pc - 4))
  else some (.inr (some (s, 0)))

def tableEntries (base : Word) : ℕ → ℕ → Bool × List Word
  | _, 0 => (true, [])
  | i, k + 1 =>
    match e.read (base + BitVec.ofNat 32 i * 4) with
    | none => (false, [])
    | some x =>
      let (ok, out) := tableEntries base (i + 1) k
      (ok, x :: out)

/-- `jump_table`: its answer, and what it left in `out`. -/
def jumpTable (n : ℕ) (jrPc : Word) : Option (Bool × List Word) :=
  match e.read jrPc with
  | none => some (false, [])
  | some insn =>
    (loop (e.tableBody n jrPc) n (⟨0, insn.rs, false⟩, jrPc - 4)).map fun r =>
      match r with
      | none => (false, [])
      | some (s, count) =>
        if s.haveBase = false ∨ count = 0 ∨ 256 < count then (false, [])
        else e.tableEntries s.base 0 count.toNat

/-- Where a jr goes: its table, else the targets it was seen to take.  With neither, what the
failed read of the table left. -/
def jrTargets (n : ℕ) (pc : Word) : Option (Bool × List Word) :=
  (e.jumpTable n pc).map fun (ok, tgts) =>
    if ok then (true, tgts) else (false, (e.hints pc).getD tgts)

end Env

structure Log where
  problems : List (Word × String)
  nJrStatic : ℕ
  nJrHint : ℕ
  nTraps : ℕ

def Log.problem (l : Log) (pc : Word) (what : String) : Log :=
  { l with problems := l.problems ++ [(pc, what)] }

def Word.leb (a b : Word) : Bool := a.ule b

def insert (a : Word) (s : List Word) : List Word := setInsert Word.leb a s

structure Pass1 where
  leaders : List Word
  ends : List Word
  /-- By the address past the delay slot. -/
  edges : Word → Option (List Word)
  work : List Word
  seen : List Word
  terms : List Word
  leaf : Bool
  calls : List Word
  indirectSites : List Word
  log : Log

namespace Pass1

def init (entry : Word) : Pass1 where
  leaders := [entry]
  ends := []
  edges := fun _ => none
  work := [entry]
  seen := []
  terms := []
  leaf := true
  calls := []
  indirectSites := []
  log := ⟨[], 0, 0, 0⟩

/-- `leaders.insert(t); work.push_back(t);` for each successor. -/
def follow (p : Pass1) (succ : List Word) : Pass1 :=
  { p with leaders := succ.foldl (fun s t => insert t s) p.leaders, work := p.work ++ succ }

/-- What a jr adds to the log: resolved from its table, only from hints, or not at all. -/
def jrLog (l : Log) (e : Env) (pc : Word) (ok : Bool) (tgts : List Word) : Log :=
  if ok then
    ((e.hints pc).getD []).foldl
      (fun l t => if t ∈ tgts then l else l.problem pc "observed jr target missing from its table")
      { l with nJrStatic := l.nJrStatic + 1 }
  else if (e.hints pc).isSome then { l with nJrHint := l.nJrHint + 1 }
  else l.problem pc "unresolved jr"

def terminator (e : Env) (n : ℕ) (p : Pass1) (pc : Word) (c : Ctl) : Option (Pass1 × List Word) :=
  let after := pc + 8
  match c.k with
  | .branch | .likely => some (p, [c.target, after])
  | .jump => some (p, [c.target])
  | .call => some ({ p with leaf := false, calls := insert c.target p.calls }, [after])
  | .jalr =>
    let p := { p with leaf := false, indirectSites := insert pc p.indirectSites }
    match e.hints pc with
    | some h => some ({ p with calls := h.foldl (fun s t => insert t s) p.calls }, [after])
    | none => some ({ p with log := p.log.problem pc "jalr with no known target" }, [after])
  | .jr =>
    if c.reg = 31 then some (p, [])
    else (e.jrTargets n pc).map fun (ok, tgts) => ({ p with log := jrLog p.log e pc ok tgts }, tgts)
  | .fall | .trap => some (p, [])

def runBody (e : Env) (n : ℕ) (st : Pass1 × Word) : Option ((Pass1 × Word) ⊕ Pass1) :=
  let (p, pc) := st
  match e.read pc with
  | none =>
    some (.inr { p with log := p.log.problem pc "unmapped instruction", ends := insert pc p.ends })
  | some insn =>
    let c := decode pc insn
    if c.k = .fall then some (.inl (p, pc + 4))
    else if c.k = .trap then
      some (.inr { p with log := { p.log with nTraps := p.log.nTraps + 1 } })
    else if pc ∈ p.terms then
      -- everything downstream of it is already recorded
      some (.inr p)
    else
      let p := { p with terms := insert pc p.terms, ends := insert (pc + 8) p.ends }
      (p.terminator e n pc c).map fun (p, succ) =>
        .inr ({ p with edges := Function.update p.edges (pc + 8) (some succ) }.follow succ)

/-- `while(not work.empty())` -/
def workBody (e : Env) (n : ℕ) (p : Pass1) : Option (Pass1 ⊕ Pass1) :=
  match p.work with
  | [] => some (.inr p)
  | pc :: rest =>
    let p := { p with work := rest }
    if pc ∈ p.seen then some (.inl p)
    else (loop (runBody e n) n ({ p with seen := insert pc p.seen }, pc)).map .inl

def walk (e : Env) (n : ℕ) (entry : Word) : Option Pass1 := loop (workBody e n) n (init entry)

end Pass1

structure Block where
  start : Word
  /-- Past the delay slot. -/
  end_ : Word
  succs : List Word
  endsCall : Bool
  endsReturn : Bool
  endsTrap : Bool
  /-- The slot runs only on the taken edge. -/
  endsLikely : Bool
  endsIndirect : Bool
  unresolved : Bool

structure Func where
  entry : Word
  leaf : Bool
  /-- By their starts. -/
  blocks : List (Word × Block)
  calls : List Word
  indirectSites : List Word
  unresolvedCalls : ℕ
  nInsns : ℕ

inductive Stop
  | unread
  | trap
  | control (c : Ctl)
  | bound

def cutBody (e : Env) (bounds : List Word) (pc : Word) : Option (Word ⊕ (Word × Stop)) :=
  match e.read pc with
  | none => some (.inr (pc, .unread))
  | some insn =>
    let c := decode pc insn
    if c.k = .trap then some (.inr (pc + 4, .trap))
    else if c.k ≠ .fall then some (.inr (pc + 8, .control c))
    else if pc + 4 ∈ bounds then some (.inr (pc + 4, .bound))
    else some (.inl (pc + 4))

def mkBlock (e : Env) (edges : Word → Option (List Word)) (start pc : Word) (s : Stop) : Block :=
  let plain : Block := ⟨start, pc, [pc], false, false, false, false, false, false⟩
  match s with
  | .unread | .bound => plain
  | .trap => { plain with succs := (edges pc).getD [], endsTrap := true }
  | .control c =>
    let succs := (edges pc).getD []
    let b := { plain with succs := succs, endsLikely := c.k = .likely }
    match c.k with
    | .call => { b with endsCall := true }
    | .jalr => { b with endsCall := true, unresolved := (e.hints (pc - 8)).isNone }
    | .jr =>
      if c.reg = 31 then { b with endsReturn := true }
      else { b with endsIndirect := true, unresolved := succs.isEmpty }
    | _ => b

/-- A jalr site with no known target. -/
def Stop.isUnresolvedCall (e : Env) (pc : Word) : Stop → Bool
  | .control c => c.k = .jalr && (e.hints (pc - 8)).isNone
  | _ => false

def cutBlocks (e : Env) (n : ℕ) (p : Pass1) : List Word → Func → Option Func
  | [], fn => some fn
  | start :: rest, fn =>
    if start ∉ p.seen then cutBlocks e n p rest fn
    else
      match loop (cutBody e (p.leaders ++ p.ends)) n start with
      | none => none
      | some (pc, s) =>
        let b := mkBlock e p.edges start pc s
        cutBlocks e n p rest { fn with
          blocks := fn.blocks ++ [(start, b)]
          unresolvedCalls := fn.unresolvedCalls + if s.isUnresolvedCall e pc then 1 else 0
          nInsns := fn.nInsns + (b.end_ - b.start).toNat / 4 }

/-- `build`: the function it records, and what it adds to the log. `none` is a loop that did not
end in `n` turns. -/
def build (e : Env) (n : ℕ) (entry : Word) : Option (Func × Log) :=
  match Pass1.walk e n entry with
  | none => none
  | some p =>
    (cutBlocks e n p p.leaders ⟨entry, p.leaf, [], p.calls, p.indirectSites, 0, 0⟩).map fun fn =>
      (fn, p.log)

end RspBt.R4300
