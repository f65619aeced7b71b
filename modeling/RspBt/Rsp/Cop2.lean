import RspBt.Rsp.State

namespace RspBt.Rsp

def sext48 (x : BitVec 64) : BitVec 64 := (x <<< 16).sshiftRight 16

def clampS16 (x : BitVec 64) : BitVec 16 :=
  (if x.slt (-32768) then (-32768 : BitVec 64)
    else if (32767 : BitVec 64).slt x then 32767 else x).setWidth 16

/-- Result of the "low" multiply-accumulates: ACC[15:0], saturated when the accumulator
no longer fits in a signed 32-bit value. -/
def clampAccLow (a : BitVec 64) : BitVec 16 :=
  if a.slt (-0x80000000) then 0
  else if (0x7fffffff : BitVec 64).slt a then 0xffff
  else a.setWidth 16

/-- Element specifier: which lane of `vt` feeds lane `i`. -/
def vtLane (e : BitVec 4) (i : Fin 8) : Fin 8 :=
  if e < 2 then i
  else if e < 4 then ⟨i / 2 * 2 + e.toNat % 2, by omega⟩
  else if e < 8 then ⟨i / 4 * 4 + e.toNat % 4, by omega⟩
  else ⟨e.toNat % 8, by omega⟩

theorem vtLane_pair (e : BitVec 4) (i : Fin 8) : i / 2 * 2 + e.toNat % 2 < 8 := by omega
theorem vtLane_quad (e : BitVec 4) (i : Fin 8) : i / 4 * 4 + e.toNat % 4 < 8 := by omega
theorem vtLane_one (e : BitVec 4) : e.toNat % 8 < 8 := by omega

@[ext]
structure Lane where
  acc : BitVec 64
  vcoL : Bool
  vcoH : Bool
  vccL : Bool
  vccH : Bool
  vce : Bool
  res : BitVec 16

namespace Lane

def accMid (l : Lane) (a : BitVec 64) : Lane :=
  { l with acc := a, res := clampS16 (a.sshiftRight 16) }

def accLow (l : Lane) (a : BitVec 64) : Lane := { l with acc := a, res := clampAccLow a }

def lowSlice (l : Lane) (x : BitVec 16) : Lane :=
  { l with acc := (l.acc &&& ~~~(0xffff : BitVec 64)) ||| x.setWidth 64, res := x }

/-- vcl: one compare is latched, by the carry flag, unless VCO.hi says the sign was
already settled. -/
def clip (l : Lane) (s t : BitVec 16) : Lane :=
  let su : BitVec 64 := s.setWidth 64
  let tu : BitVec 64 := t.setWidth 64
  if l.vcoL then
    let vccL := if !l.vcoH then
        (if l.vce then (su + tu).sle 0x10000 else su + tu == 0) else l.vccL
    { l.lowSlice (if vccL then (-tu).setWidth 16 else s) with
      vccL := vccL, vcoL := false, vcoH := false, vce := false }
  else
    let vccH := if !l.vcoH then (0 : BitVec 64).sle (su - tu) else l.vccH
    { l.lowSlice (if vccH then t else s) with
      vccH := vccH, vcoL := false, vcoH := false, vce := false }

end Lane

/-- `switch(fn)` at one lane: `e` is the element field, `s` and `t` the operands. The `int64_t`
variables are 64-bit vectors, read as signed. -/
def vecOp (fn : BitVec 6) : Option (BitVec 4 → BitVec 16 → BitVec 16 → Lane → Lane) :=
  match fn with
  | 0x00 => some fun _ s t l => l.accMid                               -- vmulf
      (sext48 (s.signExtend 64 * t.signExtend 64 * 2 + 0x8000))
  | 0x04 => some fun _ s t l => l.accLow                               -- vmudl
      ((s.setWidth 64 * t.setWidth 64).sshiftRight 16)
  | 0x05 => some fun _ s t l => l.accMid                               -- vmudm
      (sext48 (s.signExtend 64 * t.setWidth 64))
  | 0x06 => some fun _ s t l => l.accLow                               -- vmudn
      (sext48 (s.setWidth 64 * t.signExtend 64))
  | 0x07 => some fun _ s t l => l.accMid                               -- vmudh
      (sext48 ((s.signExtend 64 * t.signExtend 64) <<< 16))
  | 0x08 => some fun _ s t l => l.accMid                               -- vmacf
      (sext48 (l.acc + s.signExtend 64 * t.signExtend 64 * 2))
  | 0x0d => some fun _ s t l => l.accMid                               -- vmadm
      (sext48 (l.acc + s.signExtend 64 * t.setWidth 64))
  | 0x0e => some fun _ s t l => l.accLow                               -- vmadn
      (sext48 (l.acc + s.setWidth 64 * t.signExtend 64))
  | 0x0f => some fun _ s t l => l.accMid                               -- vmadh
      (sext48 (l.acc + (s.signExtend 64 * t.signExtend 64) <<< 16))
  | 0x10 => some fun _ s t l =>                                        -- vadd
      let x := s.signExtend 64 + t.signExtend 64 + (if l.vcoL then 1 else 0)
      { l with
        acc := (l.acc &&& ~~~(0xffff : BitVec 64)) ||| (x &&& 0xffff)
        res := clampS16 x, vcoL := false, vcoH := false }
  | 0x11 => some fun _ s t l =>                                        -- vsub
      let x := s.signExtend 64 - t.signExtend 64 - (if l.vcoL then 1 else 0)
      { l with
        acc := (l.acc &&& ~~~(0xffff : BitVec 64)) ||| (x &&& 0xffff)
        res := clampS16 x, vcoL := false, vcoH := false }
  | 0x14 => some fun _ s t l =>                                        -- vaddc
      let x : BitVec 64 := s.setWidth 64 + t.setWidth 64
      { l with
        res := (x &&& 0xffff).setWidth 16
        acc := (l.acc &&& ~~~(0xffff : BitVec 64)) ||| (x &&& 0xffff)
        vcoL := (x.sshiftRight 16 &&& 1) != 0, vcoH := false }
  | 0x1d => some fun e _ _ l =>                                        -- vsar
      { l with
        res := (if e = 8 then l.acc.sshiftRight 32
          else if e = 9 then l.acc.sshiftRight 16
          else if e = 10 then l.acc else 0).setWidth 16 }
  | 0x23 => some fun _ s t l =>                                        -- vge
      let ge := t.slt s || (s == t && !(l.vcoH && l.vcoL))
      { l.lowSlice (if ge then s else t) with
        vccL := ge, vccH := false, vcoL := false, vcoH := false }
  | 0x24 => some fun _ s t l => l.clip s t                             -- vcl
  | 0x28 => some fun _ s t l => l.lowSlice (s &&& t)                   -- vand
  | 0x29 => some fun _ s t l => l.lowSlice (~~~(s &&& t))              -- vnand
  | 0x2a => some fun _ s t l => l.lowSlice (s ||| t)                   -- vor
  | 0x2b => some fun _ s t l => l.lowSlice (~~~(s ||| t))              -- vnor
  | 0x2d => some fun _ s t l => l.lowSlice (~~~(s ^^^ t))              -- vnxor
  | 0x27 => some fun _ s t l => l.lowSlice (if l.vccL then s else t)   -- vmrg
  | 0x13 => some fun _ s t l =>                                        -- vabs
      l.lowSlice (if s.slt 0 then -t else if s = 0 then 0 else t)
  | 0x15 => some fun _ s t l =>                                        -- vsubc
      let d : Word := s.signExtend 32 - t.signExtend 32
      { l.lowSlice (d.setWidth 16) with vcoL := d.slt 0, vcoH := d != 0 }
  | 0x2c => some fun _ s t l => l.lowSlice (s ^^^ t)                   -- vxor
  | _ => none

def lanes (s : Rsp) : Fin 8 → Lane := fun i =>
  { acc := s.acc i, vcoL := s.vcoL i, vcoH := s.vcoH i, vccL := s.vccL i, vccH := s.vccH i
    vce := s.vce i, res := 0 }

def putLanes (s : Rsp) (vd : BitVec 5) (l : Fin 8 → Lane) : Rsp :=
  { s with
    v := Function.update s.v vd fun i => (l i).res
    acc := fun i => (l i).acc
    vcoL := fun i => (l i).vcoL
    vcoH := fun i => (l i).vcoH
    vccL := fun i => (l i).vccL
    vccH := fun i => (l i).vccH
    vce := fun i => (l i).vce }

def vecLoop (s : Rsp) (op : BitVec 4 → BitVec 16 → BitVec 16 → Lane → Lane)
    (e : BitVec 4) (vs vt vd : BitVec 5) : Rsp :=
  s.putLanes vd <| (List.finRange 8).foldl
    (fun l i => Function.update l i (op e (s.v vs i) (s.v vt (vtLane e i)) (l i))) s.lanes

theorem vecLoop_eq (s : Rsp) (op : BitVec 4 → BitVec 16 → BitVec 16 → Lane → Lane)
    (e : BitVec 4) (vs vt vd : BitVec 5) :
    s.vecLoop op e vs vt vd =
      s.putLanes vd fun i => op e (s.v vs i) (s.v vt (vtLane e i)) (s.lanes i) := by
  unfold vecLoop
  rw [Lib.foldl_lanes_eq_map fun i l => op e (s.v vs i) (s.v vt (vtLane e i)) l]

/-- VCO, VCC or VCE packed: element `i` is bit `i` and the paired flag bit `i+8`. -/
def getVflags (s : Rsp) (which : BitVec 5) : BitVec 16 :=
  let lo := if which = 0 then s.vcoL else if which = 1 then s.vccL else s.vce
  let hi := if which = 0 then s.vcoH else s.vccH
  (List.finRange 8).foldl (fun v i =>
    let v := v ||| (if lo i then 1 <<< i.val else 0)
    if which ≠ 2 then v ||| (if hi i then 1 <<< (i.val + 8) else 0) else v) (0 : BitVec 16)

def setVflags (s : Rsp) (which : BitVec 5) (x : BitVec 16) : Rsp :=
  let lo : Lib.Mask 8 := fun i => x.getLsbD i.val
  let hi : Lib.Mask 8 := fun i => x.getLsbD (i.val + 8)
  let s := if which = 0 then { s with vcoL := lo }
    else if which = 1 then { s with vccL := lo } else { s with vce := lo }
  if which ≠ 2 then (if which = 0 then { s with vcoH := hi } else { s with vccH := hi }) else s

def cop2Move (s : Rsp) (w : Word) : Option Rsp :=
  let e := w.byteE.toNat
  match w.rs with
  | 0 => some (s.setR w.rt ((s.vbyte w.rd e ++ s.vbyte w.rd (e + 1)).signExtend 32))
  | 4 =>
    let s' := s.setVbyte w.rd e ((s.r w.rt).extractLsb' 8 8)
    some (if e ≠ 15 then s'.setVbyte w.rd (e + 1) ((s.r w.rt).extractLsb' 0 8) else s')
  | 2 => some (s.setR w.rt ((s.getVflags w.rd).signExtend 32))
  | 6 => some (s.setVflags w.rd ((s.r w.rt).setWidth 16))
  | _ => none

def cop2 (s : Rsp) (w : Word) : Option Rsp :=
  if w.isVecOp = false then s.cop2Move w
  else (vecOp w.fn).map fun op => s.vecLoop op w.vecE w.rd w.rt w.sa

end RspBt.Rsp
