import RspBt.Rsp.Run

namespace RspBt

open Lib

inductive FlagT
  | vcoL | vcoH | vccL | vccH | vce
deriving DecidableEq

/-- The allocas, loaded at entry and stored back at exit, and the object. -/
structure Frame where
  /-- `*vState`: its registers are stale while translated code runs. -/
  c : Rsp
  gpr : BitVec 5 → Word
  vec : BitVec 5 → Lanes 8 16
  acc : Lanes 8 64
  flag : FlagT → Mask 8

namespace Frame

/-- The loads of the entry block; `gpr[0]` has no alloca and is never read. -/
def enter (c : Rsp) : Frame where
  c := c
  gpr := c.r
  vec := c.v
  acc := c.acc
  flag
    | .vcoL => c.vcoL
    | .vcoH => c.vcoH
    | .vccL => c.vccL
    | .vccH => c.vccH
    | .vce => c.vce

def spill (f : Frame) : Rsp :=
  { f.c with
    r := fun i => if i = 0 then f.c.r 0 else f.gpr i
    v := f.vec
    acc := f.acc
    vcoL := f.flag .vcoL
    vcoH := f.flag .vcoH
    vccL := f.flag .vccL
    vccH := f.flag .vccH
    vce := f.flag .vce }

def getGPR (f : Frame) (r : BitVec 5) : Word := if r = 0 then 0 else f.gpr r
def setGPR (f : Frame) (r : BitVec 5) (x : Word) : Frame :=
  if r = 0 then f else { f with gpr := Function.update f.gpr r x }
def getVec (f : Frame) (r : BitVec 5) : Lanes 8 16 := f.vec r
def setVec (f : Frame) (r : BitVec 5) (x : Lanes 8 16) : Frame :=
  { f with vec := Function.update f.vec r x }
def setAcc (f : Frame) (x : Lanes 8 64) : Frame := { f with acc := x }
def getFlag (f : Frame) (k : FlagT) : Mask 8 := f.flag k
def setFlag (f : Frame) (k : FlagT) (x : Mask 8) : Frame :=
  { f with flag := Function.update f.flag k x }
def clearFlag (f : Frame) (k : FlagT) : Frame := f.setFlag k fun _ => false

def splat64 (x : BitVec 64) : Lanes 8 64 := Lanes.splat x
def splat16 (x : BitVec 16) : Lanes 8 16 := Lanes.splat x

def vtSelect (f : Frame) (vt : BitVec 5) (e : BitVec 4) : Lanes 8 16 :=
  let t := f.getVec vt
  if e < 2 then t
  else Lanes.shuffle t fun i : Fin 8 =>
    if e < 4 then ⟨i / 2 * 2 + e.toNat % 2, Rsp.vtLane_pair e i⟩
    else if e < 8 then ⟨i / 4 * 4 + e.toNat % 4, Rsp.vtLane_quad e i⟩
    else ⟨e.toNat % 8, Rsp.vtLane_one e⟩

def sext48 (a : Lanes 8 64) : Lanes 8 64 := Lanes.ashr (Lanes.shl a (splat64 16)) (splat64 16)

def clampLanes (x : Lanes 8 64) : Lanes 8 16 :=
  Lanes.trunc 16 (Lanes.smin (Lanes.smax x (splat64 (-32768))) (splat64 32767))

def satMid (a : Lanes 8 64) : Lanes 8 16 := clampLanes (Lanes.ashr a (splat64 16))

def clampLow (a : Lanes 8 64) : Lanes 8 16 :=
  let lt := Lanes.icmpSlt a (splat64 (-0x80000000))
  let gt := Lanes.icmpSgt a (splat64 0x7fffffff)
  let lo := Lanes.select gt (splat16 (-1)) (Lanes.trunc 16 a)
  Lanes.select lt (splat16 0) lo

def setAccLow (f : Frame) (res : Lanes 8 16) : Frame :=
  f.setAcc (Lanes.or (Lanes.and f.acc (splat64 (~~~0xffff))) (Lanes.zext 64 res))

def dmemPtr (ea12 : Word) : ℕ := ea12.toNat

def fitsInDmem (ea : Word) (nbytes : ℕ) : Bool :=
  (ea &&& 0xfff).ule (BitVec.ofNat 32 (0x1000 - nbytes))

def load16 (m : ℕ → Byte) (p : ℕ) : BitVec 16 := m (p + 1) ++ m p
def load32 (m : ℕ → Byte) (p : ℕ) : Word := m (p + 3) ++ m (p + 2) ++ m (p + 1) ++ m p

def store16 (m : ℕ → Byte) (p : ℕ) (x : BitVec 16) : ℕ → Byte :=
  Function.update (Function.update m p (loByte x)) (p + 1) (hiByte x)
def store32 (m : ℕ → Byte) (p : ℕ) (x : Word) : ℕ → Byte :=
  Function.update (Function.update (Function.update (Function.update m p (x.extractLsb' 0 8))
    (p + 1) (x.extractLsb' 8 8)) (p + 2) (x.extractLsb' 16 8)) (p + 3) (x.extractLsb' 24 8)

def bswap16 (x : BitVec 16) : BitVec 16 := loByte x ++ hiByte x
def bswap32 (x : Word) : Word :=
  x.extractLsb' 0 8 ++ x.extractLsb' 8 8 ++ x.extractLsb' 16 8 ++ x.extractLsb' 24 8

def rspbtRd (c : Rsp) (a : Word) (n : ℕ) : Word :=
  if n = 2 then (c.rd16 a).setWidth 32 else c.rd32 a

def rspbtWr (c : Rsp) (a x : Word) (n : ℕ) : Rsp :=
  if n = 2 then c.wr16 a (x.setWidth 16) else c.wr32 a x

/-- Zero-extended to `i32`; `nbytes` is 1, 2 or 4. -/
def loadMem (f : Frame) (ea : Word) (nbytes : ℕ) : Word :=
  let p := dmemPtr (ea &&& 0xfff)
  if nbytes = 1 then (f.c.mem p).setWidth 32
  else if fitsInDmem ea nbytes then
    if nbytes = 2 then (bswap16 (load16 f.c.mem p)).setWidth 32 else bswap32 (load32 f.c.mem p)
  else rspbtRd f.c ea nbytes

def setMem (f : Frame) (m : ℕ → Byte) : Frame := { f with c := { f.c with mem := m } }

def storeMem (f : Frame) (ea val : Word) (nbytes : ℕ) : Frame :=
  let p := dmemPtr (ea &&& 0xfff)
  if nbytes = 1 then f.setMem (Function.update f.c.mem p (val.setWidth 8))
  else if fitsInDmem ea nbytes then
    if nbytes = 2 then f.setMem (store16 f.c.mem p (bswap16 (val.setWidth 16)))
    else f.setMem (store32 f.c.mem p (bswap32 val))
  else { f with c := rspbtWr f.c ea val nbytes }

/-- `i ^ 1`: the byte swap inside each pair. -/
def swapPairs (i : Fin 16) : Fin 16 := ⟨if i.val % 2 = 0 then i.val + 1 else i.val - 1, by split <;> omega⟩

/-- `bitcast <8 x i16> to <16 x i8>` on a little-endian host. -/
def bitcastBytes (v : Lanes 8 16) : Lanes 16 8 := fun i =>
  let x := v ⟨i / 2, by omega⟩
  if i.val % 2 = 0 then loByte x else hiByte x

def bitcastLanes (b : Lanes 16 8) : Lanes 8 16 := fun l => b ⟨2 * l + 1, by omega⟩ ++ b ⟨2 * l, by omega⟩

def toBytes (v : Lanes 8 16) : Lanes 16 8 := Lanes.shuffle (bitcastBytes v) swapPairs
def fromBytes (b : Lanes 16 8) : Lanes 8 16 := bitcastLanes (Lanes.shuffle b swapPairs)

def byteIndexVector : Lanes 16 8 := fun i => BitVec.ofNat 8 i
def splat8 (x : Byte) : Lanes 16 8 := Lanes.splat x

def loadVec (n : ℕ) (m : ℕ → Byte) (p : ℕ) : Lanes n 8 := fun i => m (p + i)

def storeVec {n : ℕ} (m : ℕ → Byte) (p : ℕ) (x : Lanes n 8) : ℕ → Byte :=
  fun a => if h : p ≤ a ∧ a < p + n then x ⟨a - p, by omega⟩ else m a

/-- The two shuffles of the fixed-size load: `n` bytes laid over `old` from byte `e` on.
The lanes the widening leaves undefined are never picked. -/
def blend {n : ℕ} (old : Lanes 16 8) (x : Lanes n 8) (e : ℕ) : Lanes 16 8 := fun i =>
  if h : e ≤ i.val ∧ i.val < e + n then x ⟨i - e, by omega⟩ else old i

def pick (n : ℕ) (bytes : Lanes 16 8) (e : ℕ) (h : e + n ≤ 16) : Lanes n 8 :=
  Lanes.shuffle bytes fun i => ⟨e + i, by omega⟩

inductive VecMemKind
  | fixed | rowLeft | rowRight
deriving DecidableEq

def rowCount8 (ea : Word) : Byte := (16 - (ea &&& 15)).setWidth 8

/-- The spill of the slow path: only `r[base]` and `v[vt]`. -/
def spillFor (f : Frame) (base vt : BitVec 5) : Rsp :=
  let c := if base ≠ 0 then f.c.setR base (f.getGPR base) else f.c
  c.setV vt (f.getVec vt)

def vecLoadSlow (f : Frame) (w : Word) (base vt : BitVec 5) : Option Frame :=
  ((f.spillFor base vt).lwc2 w).map fun c => { f with c := c }.setVec vt (c.v vt)

def vecLoad (f : Frame) (w : Word) (base vt : BitVec 5) (ea : Word) (e nbytes : ℕ)
    (kind : VecMemKind) : Option Frame :=
  let ea12 := ea &&& 0xfff
  let old := toBytes (f.getVec vt)
  let m := f.c.mem
  match kind with
  | .fixed =>
    if e + nbytes ≤ 16 ∧ fitsInDmem ea nbytes then
      some (f.setVec vt (fromBytes (blend old (loadVec nbytes m (dmemPtr ea12)) e)))
    else f.vecLoadSlow w base vt
  | .rowLeft =>
    if e = 0 ∧ ea12.ule 0xff0 then
      let take := Lanes.icmpUlt byteIndexVector (splat8 (rowCount8 ea))
      some (f.setVec vt (fromBytes (Lanes.select take (loadVec 16 m (dmemPtr ea12)) old)))
    else f.vecLoadSlow w base vt
  | .rowRight =>
    if e = 0 ∧ (16 : Word).ule ea12 then
      let take := Lanes.icmpUge byteIndexVector (splat8 (rowCount8 ea))
      some (f.setVec vt (fromBytes (Lanes.select take (loadVec 16 m (dmemPtr (ea12 - 16))) old)))
    else f.vecLoadSlow w base vt

def vecStoreSlow (f : Frame) (w : Word) (base vt : BitVec 5) : Option Frame :=
  ((f.spillFor base vt).swc2 w).map fun c => { f with c := c }

def vecStore (f : Frame) (w : Word) (base vt : BitVec 5) (ea : Word) (e nbytes : ℕ)
    (kind : VecMemKind) : Option Frame :=
  let ea12 := ea &&& 0xfff
  let bytes := toBytes (f.getVec vt)
  let m := f.c.mem
  match kind with
  | .fixed =>
    if h : e + nbytes ≤ 16 ∧ fitsInDmem ea nbytes then
      some (f.setMem (storeVec m (dmemPtr ea12) (pick nbytes bytes e h.1)))
    else f.vecStoreSlow w base vt
  | .rowLeft =>
    if e = 0 ∧ ea12.ule 0xff0 then
      let cur := loadVec 16 m (dmemPtr ea12)
      let take := Lanes.icmpUlt byteIndexVector (splat8 (rowCount8 ea))
      some (f.setMem (storeVec m (dmemPtr ea12) (Lanes.select take bytes cur)))
    else f.vecStoreSlow w base vt
  | .rowRight => f.vecStoreSlow w base vt

end Frame

end RspBt
