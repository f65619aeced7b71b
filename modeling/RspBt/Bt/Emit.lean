import RspBt.Bt.Walk

namespace RspBt

open Lib

/-- How a block ends.  A control transfer has emitted its delay slot `d`. -/
inductive Term
  | interp (pc : Word)
  | halt
  | br (k : Key)
  | branch (i d : RspInsn) (taken nt : Key)
  | jump (i d : RspInsn) (k : Key)
  | indirect (i d : RspInsn) (cases : List (Word × Key))

structure Block where
  body : List RspInsn
  term : Term

namespace Term

def targets : Term → List Key
  | .interp _ | .halt => []
  | .br k => [k]
  | .branch _ _ t nt => [t, nt]
  | .jump _ _ k => [k]
  | .indirect _ _ cases => cases.map Prod.snd

end Term

/-- The cases of a devirtualized jr: in a call context the return address on top of the
call string, outside any the dispatch roots. -/
def indirectCases (c : Contexts) (roots : List Word) (cx : ℕ) : Option (List (Word × Key)) :=
  if cx ≠ 0 then
    match (c.str cx).getLast?, c.popCtx cx with
    | some back, some id => some [(back, (back, id))]
    | _, _ => none
  else some (roots.map fun r => (r, (r, 0)))

/-- `generateIR` of a control transfer. -/
def RspInsn.controlIR [Contexts.Ids] (i d : RspInsn) (c : Contexts) (roots : List Word) (cx : ℕ) :
    Option (Contexts × Term) :=
  match i.cls with
  | .branch _ => some (c, .branch i d (i.tAddr, cx) (i.link, cx))
  | .j => some (c, .jump i d (i.tAddr, cx))
  | .jal =>
    let (c, id) := Contexts.Ids.pushCtx c cx i.link
    some (c, .jump i d (i.tAddr, id))
  | .jr | .jalr => (indirectCases c roots cx).map fun cases => (c, .indirect i d cases)
  | _ => none

def emitBody [Contexts.Ids] (imem : Image) (w : Walk) (cx : ℕ)
    (st : Contexts × Word × List RspInsn) :
    Option ((Contexts × Word × List RspInsn) ⊕ (Contexts × Block)) :=
  let (c, a, body) := st
  match imem.at a with
  | none => some (.inr (c, ⟨body, .interp a⟩))
  | some i =>
    if imem.translatable a = false then some (.inr (c, ⟨body, .interp a⟩))
    else if i.isControl then
      match imem.at (a + 4) with
      | none => none
      | some d => (i.controlIR d c w.roots cx).map fun (c, t) => .inr (c, ⟨body, t⟩)
    else if i.isBreak then some (.inr (c, ⟨body, .halt⟩))
    else
      let a' := (a + 4) &&& 0xffc
      if (a', cx) ∈ w.leaders then some (.inr (c, ⟨body ++ [i], .br (a', cx)⟩))
      else some (.inl (c, a', body ++ [i]))

def emitLeader [Contexts.Ids] (imem : Image) (n : ℕ) (w : Walk) (c : Contexts) (k : Key) :
    Option (Contexts × Block) :=
  loop (emitBody imem w k.2) n (c, k.1, [])

def emitLeaders [Contexts.Ids] (imem : Image) (n : ℕ) (w : Walk) :
    List Key → Contexts → Option (Contexts × List (Key × Block))
  | [], c => some (c, [])
  | k :: ks, c =>
    match emitLeader imem n w c k with
    | none => none
    | some (c, b) => (emitLeaders imem n w ks c).map fun (c, bs) => (c, (k, b) :: bs)

structure Translation where
  imem : Image
  ctxs : Contexts
  roots : List Word
  leaders : List Key
  blocks : List (Key × Block)

/-- `compile`; its loops take at most `n` turns each. -/
def compile [Contexts.Ids] (imem : Image) (n : ℕ) (roots : List Word) : Option Translation :=
  match Walk.walk imem n roots with
  | none => none
  | some w => (emitLeaders imem n w w.leaders w.ctxs).map fun (c, bs) =>
      { imem := imem, ctxs := c, roots := w.roots, leaders := w.leaders, blocks := bs }

inductive Out
  | goto (k : Key) (f : Frame)
  | ret (pc : Word) (f : Frame)
  | halt (f : Frame)
  | die

/-- The IR of one instruction, then `k` in the block it goes on in. -/
def RspInsn.andThen (d : RspInsn) (f : Frame) (k : Frame → Out) : Out :=
  match d.generateIR f with
  | .cont f => k f
  | .exit pc f => .ret pc f
  | .die => .die

def IBranchTypeInsn.condition (o : IBranchTypeInsn) (f : Frame) (w : Word) : Bool :=
  let a := f.getGPR w.rs
  match o with
  | .beq => a == f.getGPR w.rt
  | .bne => a != f.getGPR w.rt
  | .blez => a.sle 0
  | .bgtz => (0 : Word).slt a
  | .bltz => a.slt 0
  | .bgez => (0 : Word).sle a

def RspInsn.condition (i : RspInsn) (f : Frame) : Bool :=
  match i.cls with
  | .branch o => o.condition f i.inst
  | _ => false

/-- The link a call stores before its slot runs. -/
def RspInsn.storeLink (i : RspInsn) (f : Frame) : Frame :=
  match i.cls with
  | .jal => f.setGPR 31 i.link
  | .jalr => f.setGPR i.inst.rd i.link
  | _ => f

namespace Term

def exec (t : Term) (f : Frame) : Out :=
  match t with
  | .interp pc => .ret pc f
  | .halt => .halt f
  | .br k => .goto k f
  | .branch i d t nt =>
    -- decided before the delay slot runs
    let taken := i.condition f
    d.andThen f fun f => .goto (if taken then t else nt) f
  | .jump i d k => d.andThen (i.storeLink f) fun f => .goto k f
  | .indirect i d cases =>
    let target := f.getGPR i.inst.rs &&& 0xffc
    d.andThen (i.storeLink f) fun f =>
      match cases.lookup target with
      | some k => .goto k f
      | none => .ret target f

end Term

def execBody : List RspInsn → Term → Frame → Out
  | [], t, f => t.exec f
  | i :: is, t, f => i.andThen f fun f => execBody is t f

def Block.exec (b : Block) (f : Frame) : Out := execBody b.body b.term f

def haltedPc : Word := 0xffffffff

namespace Translation

/-- What `fn` returns, the object behind its pointer, and `halted`. -/
structure Ret where
  next : Word
  core : Rsp
  halted : Bool

/-- One block of the function; an unfilled block would not verify. -/
def body (T : Translation) (st : Key × Frame) : Option ((Key × Frame) ⊕ Ret) :=
  match T.blocks.lookup st.1 with
  | none => none
  | some b =>
    match b.exec st.2 with
    | .goto k f => some (.inl (k, f))
    | .ret pc f => some (.inr ⟨pc, f.spill, false⟩)
    | .halt f => some (.inr ⟨haltedPc, f.spill, true⟩)
    | .die => none

/-- `img.fn(&c, cur)`, for at most `n` blocks. -/
def fn (T : Translation) (n : ℕ) (c : Rsp) (cur : Word) : Option Ret :=
  let target := cur &&& 0xffc
  match (T.roots.map fun r => (r, ((r, 0) : Key))).lookup target with
  | some k => loop T.body n (k, Frame.enter c)
  | none => some ⟨target, (Frame.enter c).spill, false⟩

end Translation

end RspBt
