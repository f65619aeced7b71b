import RspBt.Lib.Loop
import RspBt.Bt.Contexts
import RspBt.Bt.Insn

namespace RspBt

open Lib

/-- Address and call-string context. -/
abbrev Key := Word × ℕ

instance : LawfulBEq Key := inferInstance

def Word.leb (a b : Word) : Bool := a.ule b
def Key.leb (k l : Key) : Bool := if k.1 = l.1 then decide (k.2 ≤ l.2) else k.1.ule l.1

/-- `at(a)`: the instruction at `a & 0xffc`. -/
def Image.at (imem : Image) (a : Word) : Option RspInsn :=
  RspInsn.decode (fetch imem (a &&& 0xffc)) (a &&& 0xffc)

/-- A control instruction is translatable only with a plain instruction in its slot. -/
def Image.translatable (imem : Image) (a : Word) : Bool :=
  match imem.at a with
  | none => false
  | some i =>
    if i.isControl then
      match imem.at (a + 4) with
      | none => false
      | some d => !d.isControl && !d.isBreak
    else true

structure Walk where
  ctxs : Contexts
  roots : List Word
  leaders : List Key
  walked : List Key
  /-- The back of the vector first. -/
  work : List Key
  rootsChanged : Bool

namespace Walk

def init (roots : List Word) : Walk where
  ctxs := Contexts.init
  roots := roots
  leaders := []
  walked := []
  work := []
  rootsChanged := true

def enqueue (w : Walk) (k : Key) : Walk :=
  if k ∈ w.leaders then w
  else { w with leaders := setInsert Key.leb k w.leaders, work := k :: w.work }

def addRoot (w : Walk) (link : Word) : Walk :=
  if link ∈ w.roots then w
  else { w with roots := setInsert Word.leb link w.roots, rootsChanged := true }

def targetCtx [Contexts.Ids] (c : Contexts) (i : RspInsn) (cx : ℕ) (link : Word) : Contexts × ℕ :=
  if i.isCall then Contexts.Ids.pushCtx c cx link else (c, cx)

/-- Outside context 0 an indirect jump is a return, to the caller's context. -/
def returnKeys (c : Contexts) (i : RspInsn) (cx : ℕ) : Option (List Key) :=
  if i.isIndirect ∧ cx ≠ 0 then
    match (c.str cx).getLast?, c.popCtx cx with
    | some back, some id => some [(back, id)]
    | _, _ => none
  else some []

def transfer [Contexts.Ids] (w : Walk) (i : RspInsn) (a : Word) (cx : ℕ) : Option Walk :=
  let link := (a + 8) &&& 0xffc
  let (ctxs, tcx) := targetCtx w.ctxs i cx link
  match returnKeys ctxs i cx with
  | none => none
  | some ret =>
    let succ := i.staticTargets.map (fun t => (t, tcx)) ++
      (if i.fallsThrough then [(link, cx)] else []) ++ ret
    let w := { w with ctxs := ctxs }
    let w := if i.makesLinkRoot then w.addRoot link else w
    some (succ.foldl enqueue w)

def runBody [Contexts.Ids] (imem : Image) (cx : ℕ) (st : Walk × Word) :
    Option ((Walk × Word) ⊕ Walk) :=
  let (w, a) := st
  if (a, cx) ∈ w.walked then
    -- fell into code already seen: a join point
    some (.inr { w with leaders := setInsert Key.leb (a, cx) w.leaders })
  else
    let w := { w with walked := setInsert Key.leb (a, cx) w.walked }
    match imem.at a with
    | none => some (.inr w)
    | some i =>
      if imem.translatable a = false then some (.inr w)
      else if i.isBreak then some (.inr w)
      else if i.isControl then (w.transfer i a cx).map .inr
      else some (.inl (w, (a + 4) &&& 0xffc))

def drainBody [Contexts.Ids] (imem : Image) (n : ℕ) (w : Walk) : Option (Walk ⊕ Walk) :=
  match w.work with
  | [] => some (.inr w)
  | k :: rest => (loop (runBody imem k.2) n ({ w with work := rest }, k.1 &&& 0xffc)).map .inl

def rootsBody [Contexts.Ids] (imem : Image) (n : ℕ) (w : Walk) : Option (Walk ⊕ Walk) :=
  if w.rootsChanged then
    let w := w.roots.foldl (fun w r => w.enqueue (r, 0)) { w with rootsChanged := false }
    (loop (drainBody imem n) n w).map .inl
  else some (.inr w)

/-- A root that turned out to be data is not a legal target after all. -/
def eraseRoots (imem : Image) (w : Walk) : Walk :=
  { w with roots := w.roots.filter fun r => imem.translatable r }

/-- Pass one, with at most `n` turns of each loop. `none` also stands for the exception of a pop
that finds no context. -/
def walk [Contexts.Ids] (imem : Image) (n : ℕ) (roots : List Word) : Option Walk :=
  (loop (rootsBody imem n) n (init roots)).map (eraseRoots imem)

end Walk

end RspBt
