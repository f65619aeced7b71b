import RspBt.Bt.Sim

namespace RspBt

open Lib

def Image.bytes (imem : Image) : List Byte := List.ofFn imem

def fnv1a64 (p : List Byte) : BitVec 64 :=
  p.foldl (fun h b => (h ^^^ b.setWidth 64) * 0x100000001b3) 0xcbf29ce484222325

structure ImageT where
  fn : Option Translation
  /-- What this translation was made from. -/
  imem : Image
  /-- Everything a jr may land on. -/
  roots : List Word
  stale : Bool

namespace ImageT

def empty : ImageT where
  fn := none
  imem := fun _ => 0
  roots := []
  stale := true

/-- `img.roots.insert(a & 0xffc)`: a new root makes the translation stale. -/
def insertRoot (img : ImageT) (a : Word) : ImageT :=
  if a &&& 0xffc ∈ img.roots then img
  else { img with roots := setInsert Word.leb (a &&& 0xffc) img.roots, stale := true }

/-- `compile` also leaves the roots it dispatches on. -/
def compile (img : ImageT) (n : ℕ) (imem : Image) : Option ImageT :=
  (RspBt.compile imem n img.roots).map fun T =>
    { img with fn := some T, roots := T.roots, stale := false }

end ImageT

structure Memo where
  cache : BitVec 64 → Option ImageT
  /-- Tasks nearly always reuse the previous image. -/
  last : Option (BitVec 64)
  nCompiles : ℕ
  nFallbacks : ℕ
  nOverlaySwaps : ℕ

namespace Memo

def init : Memo where
  cache := fun _ => none
  last := none
  nCompiles := 0
  nFallbacks := 0
  nOverlaySwaps := 0

def lastImage (p : Memo) : Option (BitVec 64 × ImageT) :=
  p.last.bind fun h => (p.cache h).map fun img => (h, img)

/-- `cache[fnv1a64(imem)]`, whose bytes are then refreshed. -/
def lookup (p : Memo) (imem : Image) : BitVec 64 × ImageT :=
  let h := fnv1a64 imem.bytes
  (h, { (p.cache h).getD .empty with imem := imem })

def find (p : Memo) (imem : Image) : BitVec 64 × ImageT :=
  match p.lastImage with
  | none => p.lookup imem
  | some (h, img) => if img.imem = imem then (h, img) else p.lookup imem

def store (p : Memo) (h : BitVec 64) (img : ImageT) : Memo :=
  { p with cache := Function.update p.cache h (some img), last := some h }

theorem store_self (p : Memo) (h : BitVec 64) (img : ImageT) :
    (p.store h img).cache h = some img := Function.update_self ..

theorem store_other (p : Memo) {h h' : BitVec 64} (hne : h' ≠ h) (img : ImageT) :
    (p.store h img).cache h' = p.cache h' := Function.update_of_ne hne ..

def offer (p : Memo) (imem : Image) (cur : Word) (hintRoots : List Word) : ImageT :=
  hintRoots.foldl ImageT.insertRoot ((p.find imem).2.insertRoot cur)

/-- The entry as `img.fn` is called, and whether that took a compile. -/
def serve (p : Memo) (n : ℕ) (imem : Image) (cur : Word) (hintRoots : List Word) :
    Option (ImageT × Bool) :=
  let img := p.offer imem cur hintRoots
  if img.stale then (img.compile n imem).map fun img => (img, true) else some (img, false)

/-- One turn of `for(;;)`; `none` also stands for a call through a null `fn`. -/
def turn (n : ℕ) (hintRoots : List Word) (st : Memo × RspT × Word) :
    Option ((Memo × RspT × Word) ⊕ (Memo × RspT)) :=
  let (p, c, cur) := st
  let h := (p.find c.core.imem).1
  match p.serve n c.core.imem cur hintRoots with
  | none => none
  | some (img, compiled) =>
    let p := p.store h img
    let p := if compiled then { p with nCompiles := p.nCompiles + 1 } else p
    match img.fn.bind fun T => T.fn n c.core cur with
    | none => none
    | some r =>
      let c' := { c with core := r.core, halted := r.halted }
      if r.next = haltedPc then some (.inr (p, c'))
      else if r.core.imemGen ≠ c.core.imemGen then
        some (.inl ({ p with nOverlaySwaps := p.nOverlaySwaps + 1 }, c', r.next))
      else
        -- a jr nobody anticipated: finish in the interpreter, a root for next time
        let p := { p.store h (img.insertRoot r.next) with nFallbacks := p.nFallbacks + 1 }
        (c'.run n r.next).map fun c => .inr (p, c)

/-- `rspbt::run`; every loop it enters takes at most `n` turns. -/
def run (n : ℕ) (p : Memo) (c : RspT) (pc : Word) (hintRoots : List Word) : Option (Memo × RspT) :=
  loop (turn n hintRoots) n (p, { c with halted := false }, pc)

end Memo

end RspBt
