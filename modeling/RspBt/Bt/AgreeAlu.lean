import RspBt.Bt.Insn
import RspBt.Rsp.Exact

namespace RspBt

open Lib

namespace Frame

theorem spill_enter (c : Rsp) : (enter c).spill = c := by
  have hr : (fun i => if i = 0 then c.r 0 else c.r i) = c.r := by
    funext i
    split_ifs with h
    · rw [h]
    · rfl
  simp only [spill, enter, hr]

theorem spill_r {f : Frame} (h0 : f.c.r 0 = 0) (i : BitVec 5) : f.spill.r i = f.getGPR i := by
  simp only [spill, getGPR, h0]

theorem spill_r_zero (f : Frame) : f.spill.r 0 = f.c.r 0 := by
  simp only [spill, if_true]

theorem zeroR0_of_r_zero {s : Rsp} (h : s.r 0 = 0) : s.zeroR0 = s := by
  have hr : Function.update s.r 0 0 = s.r := by
    rw [← h]
    exact Function.update_eq_self 0 s.r
  simp only [Rsp.zeroR0, Rsp.setR, hr]

theorem spill_zeroR0 {f : Frame} (h0 : f.c.r 0 = 0) : f.spill.zeroR0 = f.spill :=
  zeroR0_of_r_zero ((spill_r_zero f).trans h0)

theorem spill_setGPR {f : Frame} (h0 : f.c.r 0 = 0) (i : BitVec 5) (x : Word) :
    (f.setGPR i x).spill = (f.spill.setR i x).zeroR0 := by
  by_cases hi : i = 0
  · have hz : (f.spill.setR 0 x).zeroR0 = f.spill.zeroR0 := by
      simp only [Rsp.zeroR0, Rsp.setR, Function.update_idem]
    rw [hi, setGPR, if_pos rfl, hz, spill_zeroR0 h0]
  · have hr : (fun j => if j = 0 then f.c.r 0 else Function.update f.gpr i x j) =
        Function.update (Function.update f.spill.r i x) 0 0 := by
      funext j
      by_cases hj : j = 0
      · simp only [hj, if_true, Function.update_self, h0]
      · simp only [hj, if_false, Function.update_apply, spill]
    rw [setGPR, if_neg hi]
    simp only [Rsp.zeroR0, Rsp.setR, ← hr]
    rfl

theorem spill_setVec (f : Frame) (i : BitVec 5) (x : Lanes 8 16) :
    (f.setVec i x).spill = f.spill.setV i x := rfl

theorem clampLanes_apply (x : Lanes 8 64) (i : Fin 8) : clampLanes x i = Rsp.clampS16 (x i) := by
  simp only [clampLanes, Lanes.trunc, Lanes.smin, Lanes.smax, splat64, Lanes.splat, Rsp.clampS16]
  congr 1
  by_cases h : (x i).slt (-32768)
  · simp only [h, if_true]
    decide
  · simp only [h]
    rfl

theorem satMid_apply (x : Lanes 8 64) (i : Fin 8) :
    satMid x i = Rsp.clampS16 ((x i).sshiftRight 16) := clampLanes_apply _ i

theorem clampLow_apply (x : Lanes 8 64) (i : Fin 8) : clampLow x i = Rsp.clampAccLow (x i) := rfl

theorem shl_one (x : BitVec 64) : x <<< (1 : BitVec 64) = x * 2 := by
  apply BitVec.eq_of_toNat_eq
  simp [Nat.shiftLeft_eq]

theorem lshr_unsigned_product (s t : BitVec 16) :
    (s.setWidth 64 * t.setWidth 64) >>> (16 : BitVec 64) =
      (s.setWidth 64 * t.setWidth 64).sshiftRight 16 := by
  have hs := s.isLt
  have ht := t.isLt
  have hp : s.toNat * t.toNat < 2 ^ 16 * 2 ^ 16 := Nat.mul_lt_mul'' hs ht
  have hm : (s.setWidth 64 * t.setWidth 64).msb = false := by
    rw [BitVec.msb_eq_false_iff_two_mul_lt, BitVec.toNat_mul, BitVec.toNat_setWidth,
      BitVec.toNat_setWidth, Nat.mod_eq_of_lt (by omega : s.toNat < 2 ^ 64),
      Nat.mod_eq_of_lt (by omega : t.toNat < 2 ^ 64), Nat.mod_eq_of_lt (by omega)]
    omega
  rw [BitVec.sshiftRight_eq_of_msb_false hm]
  rfl

theorem carry_bit (x : BitVec 64) :
    ((x &&& 0x10000) != 0) = ((x.sshiftRight 16 &&& 1) != 0) := by
  have h1 : (x &&& 0x10000) = if x.getLsbD 16 then 0x10000 else 0 := BitVec.and_twoPow x 16
  have h2 : (x.sshiftRight 16 &&& 1) = if (x.sshiftRight 16).getLsbD 0 then 1 else 0 :=
    BitVec.and_twoPow _ 0
  have hb : (x.sshiftRight 16).getLsbD 0 = x.getLsbD 16 := by
    rw [BitVec.getLsbD_sshiftRight]
    rfl
  rw [h1, h2, hb]
  cases x.getLsbD 16 <;> rfl

theorem toNat_sum32 (s t : BitVec 16) :
    (s.setWidth 32 + t.setWidth 32 : BitVec 32).toNat = s.toNat + t.toNat := by
  have hs := s.isLt
  have ht := t.isLt
  simp only [BitVec.toNat_add, BitVec.toNat_setWidth]
  omega

theorem sum_le (s t : BitVec 16) :
    (s.setWidth 32 + t.setWidth 32).ule (0x10000 : BitVec 32) =
      (s.setWidth 64 + t.setWidth 64).sle (0x10000 : BitVec 64) := by
  have hs := s.isLt
  have ht := t.isLt
  have h64 := Rsp.toNat_sum64 s t
  have h32 := toNat_sum32 s t
  have hi : (s.setWidth 64 + t.setWidth 64 : BitVec 64).toInt = (s.toNat + t.toNat : ℕ) := by
    rw [BitVec.toInt_eq_toNat_of_lt (by omega), h64]
  rw [BitVec.ule, BitVec.sle, h32, hi]
  rw [show (0x10000 : BitVec 32).toNat = 0x10000 from rfl,
    show (0x10000 : BitVec 64).toInt = 0x10000 from rfl]
  exact decide_eq_decide.mpr (by omega)

theorem sum_zero (s t : BitVec 16) :
    (s.setWidth 32 + t.setWidth 32 == (0 : BitVec 32)) =
      (s.setWidth 64 + t.setWidth 64 == (0 : BitVec 64)) := by
  have h64 := Rsp.toNat_sum64 s t
  have h32 := toNat_sum32 s t
  rw [Bool.eq_iff_iff, beq_iff_eq, beq_iff_eq, ← BitVec.toNat_inj, ← BitVec.toNat_inj, h64, h32]
  rfl

theorem diff_nonneg (s t : BitVec 16) :
    t.ule s = (0 : BitVec 64).sle (s.setWidth 64 - t.setWidth 64) := by
  have hs := s.isLt
  have ht := t.isLt
  have hd : (s.setWidth 64 - t.setWidth 64 : BitVec 64).toInt = (s.toNat : ℤ) - t.toNat := by
    have hsi : (s.setWidth 64).toInt = s.toNat := by
      rw [BitVec.toInt_eq_toNat_of_lt] <;> rw [BitVec.toNat_setWidth] <;> omega
    have hti : (t.setWidth 64).toInt = t.toNat := by
      rw [BitVec.toInt_eq_toNat_of_lt] <;> rw [BitVec.toNat_setWidth] <;> omega
    rw [BitVec.toInt_sub, hsi, hti, Int.bmod_eq_of_le] <;> omega
  rw [BitVec.ule, BitVec.sle, hd]
  exact decide_eq_decide.mpr (by simp)

theorem neg_low (t : BitVec 16) : -t = (-(t.setWidth 64 : BitVec 64)).setWidth 16 := by
  have ht := t.isLt
  apply BitVec.eq_of_toNat_eq
  simp only [BitVec.toNat_neg, BitVec.toNat_setWidth]
  omega

def lane (f : Frame) (res : Lanes 8 16) (i : Fin 8) : Rsp.Lane where
  acc := f.acc i
  vcoL := f.flag .vcoL i
  vcoH := f.flag .vcoH i
  vccL := f.flag .vccL i
  vccH := f.flag .vccH i
  vce := f.flag .vce i
  res := res i

theorem withMid_lane (f : Frame) (a : Lanes 8 64) (i : Fin 8) :
    (f.withMid a).1.lane (f.withMid a).2 i = (f.spill.lanes i).accMid (a i) := by
  simp only [withMid, lane, satMid_apply]
  rfl

theorem withLow_lane (f : Frame) (a : Lanes 8 64) (i : Fin 8) :
    (f.withLow a).1.lane (f.withLow a).2 i = (f.spill.lanes i).accLow (a i) := by
  simp only [withLow, lane, clampLow_apply]
  rfl

/-- The slice `vsar` reads; the shift amount of the other elements is never used. -/
theorem vsar_slice (e : BitVec 4) (a : BitVec 64) :
    (if 8 ≤ e ∧ e ≤ 10 then
      (a.sshiftRight (BitVec.ofNat 64 (16 * (10 - e.toNat))).toNat).setWidth 16 else 0) =
    (if e = 8 then a.sshiftRight 32 else if e = 9 then a.sshiftRight 16
      else if e = 10 then a else 0).setWidth 16 := by
  by_cases h8 : e = 8
  · subst h8
    rfl
  by_cases h9 : e = 9
  · subst h9
    rfl
  by_cases h10 : e = 10
  · subst h10
    simp only [show (BitVec.ofNat 64 (16 * (10 - (10 : BitVec 4).toNat))).toNat = 0 from rfl,
      BitVec.sshiftRight_zero]
    rfl
  · have hn : ¬ (8 ≤ e ∧ e ≤ 10) := by bv_omega
    rw [if_neg hn, if_neg h8, if_neg h9, if_neg h10]
    rfl

theorem vsar_lane (f : Frame) (e : BitVec 4) (s t : Lanes 8 16) (i : Fin 8) :
    (f.doOp .vsar e s t).1.lane (f.doOp .vsar e s t).2 i =
      { f.spill.lanes i with
        res := (if e = 8 then (f.acc i).sshiftRight 32 else if e = 9 then (f.acc i).sshiftRight 16
          else if e = 10 then f.acc i else 0).setWidth 16 } := by
  rw [← vsar_slice]
  simp only [doOp]
  split_ifs <;> rfl

/-- vadd and vsub: the result is the clamped sum, the low slice the sum itself. -/
theorem vaddIR_lane (f : Frame) (combine : Lanes 8 64 → Lanes 8 64 → Lanes 8 64)
    (s t : Lanes 8 16) (i : Fin 8) :
    (f.vaddIR combine s t).1.lane (f.vaddIR combine s t).2 i =
      (let x := combine (combine (wideS s) (wideS t)) (Mask.zext 64 (f.flag .vcoL)) i
       { f.spill.lanes i with
         acc := (f.acc i &&& ~~~(0xffff : BitVec 64)) ||| (x &&& 0xffff)
         res := Rsp.clampS16 x, vcoL := false, vcoH := false }) := by
  simp only [vaddIR, lane, clampLanes_apply]
  rfl

/-- The two latches of `vcl`: one branch per carry flag in the interpreter, selects over
the old flags in the IR. -/
theorem clip_lane (f : Frame) (e : BitVec 4) (s t : Lanes 8 16) (i : Fin 8) :
    (f.doOp .vcl e s t).1.lane (f.doOp .vcl e s t).2 i = (f.spill.lanes i).clip (s i) (t i) := by
  have key : ∀ (x y : BitVec 16) (a : BitVec 64) (loV hiV loC hiC ve : Bool),
      (let le := if ve then (x.setWidth 32 + y.setWidth 32).ule (0x10000 : Word)
          else x.setWidth 32 + y.setWidth 32 == (0 : Word)
       let lo := if loV && !hiV then le else loC
       let hi := if !loV && !hiV then y.ule x else hiC
       let res := if loV then (if lo then -y else x) else (if hi then y else x)
       (⟨(a &&& ~~~(0xffff : BitVec 64)) ||| res.setWidth 64, false, false, lo, hi, false, res⟩ :
         Rsp.Lane)) = Rsp.Lane.clip ⟨a, loV, hiV, loC, hiC, ve, 0⟩ x y := by
    intro x y a loV hiV loC hiC ve
    simp only [Rsp.Lane.clip, ← neg_low, ← sum_le, ← sum_zero, ← diff_nonneg]
    cases loV <;> cases hiV <;> rfl
  exact key (s i) (t i) (f.acc i) _ _ _ _ _

/-- Lane by lane, the IR of a vector operation is the interpreter's switch. -/
theorem doOp_lane {fn : BitVec 6} {o : VecOpInsn} (h : RspInsn.decodeVecOp fn = some o) :
    ∃ op, Rsp.vecOp fn = some op ∧ ∀ (f : Frame) (e : BitVec 4) (s t : Lanes 8 16) (i : Fin 8),
      (f.doOp o e s t).1.lane (f.doOp o e s t).2 i = op e (s i) (t i) (f.spill.lanes i) := by
  unfold RspInsn.decodeVecOp at h
  split at h <;> first | contradiction | skip
  all_goals
    obtain rfl := Option.some.inj h
    refine ⟨_, rfl, fun f e s t i => ?_⟩
  · rw [← shl_one]                                              -- vmulf
    exact withMid_lane _ _ _
  · rw [← lshr_unsigned_product]                                -- vmudl
    exact withLow_lane _ _ _
  · exact withMid_lane _ _ _
  · exact withLow_lane _ _ _
  · exact withMid_lane _ _ _
  · rw [← shl_one]                                              -- vmacf
    exact withMid_lane _ _ _
  · exact withMid_lane _ _ _
  · exact withLow_lane _ _ _
  · exact withMid_lane _ _ _
  · exact vaddIR_lane f Lanes.add s t i
  · exact vaddIR_lane f Lanes.sub s t i
  · simp only [← carry_bit, Rsp.trunc_low16]                        -- vaddc
    rw [Rsp.low16]
    rfl
  · exact vsar_lane f e s t i
  · rfl
  · exact clip_lane f e s t i
  · rfl
  · rfl

def SameRegs (f g : Frame) : Prop := g.c = f.c ∧ g.gpr = f.gpr ∧ g.vec = f.vec

theorem sameRegs_setAcc (f : Frame) (x : Lanes 8 64) : SameRegs f (f.setAcc x) := ⟨rfl, rfl, rfl⟩

theorem SameRegs.setFlag {f g : Frame} (h : SameRegs f g) (k : FlagT) (x : Mask 8) :
    SameRegs f (g.setFlag k x) := h

theorem sameRegs_doOp (f : Frame) (o : VecOpInsn) (e : BitVec 4) (s t : Lanes 8 16) :
    SameRegs f (f.doOp o e s t).1 := by
  cases o
  case vadd | vsub => exact ((sameRegs_setAcc f _).setFlag _ _).setFlag _ _
  case vaddc => exact ((sameRegs_setAcc f _).setFlag _ _).setFlag _ _
  case vge => exact ((((sameRegs_setAcc f _).setFlag _ _).setFlag _ _).setFlag _ _).setFlag _ _
  case vcl =>
    exact (((((sameRegs_setAcc f _).setFlag _ _).setFlag _ _).setFlag _ _).setFlag _ _).setFlag _ _
  case vsar => exact ⟨rfl, rfl, rfl⟩
  all_goals exact sameRegs_setAcc f _

theorem vtSelect_apply (f : Frame) (vt : BitVec 5) (e : BitVec 4) (i : Fin 8) :
    f.vtSelect vt e i = f.vec vt (Rsp.vtLane e i) := by
  simp only [vtSelect, Rsp.vtLane, getVec]
  split_ifs <;> simp only [Lanes.shuffle]

/-- The exit block stores the lanes as the interpreter's loop leaves them. -/
theorem spill_setVec_lanes {f g : Frame} (h : SameRegs f g) (vd : BitVec 5) (res : Lanes 8 16) :
    (g.setVec vd res).spill = f.spill.putLanes vd fun i => g.lane res i := by
  simp only [spill, setVec, Rsp.putLanes, lane, h.1, h.2.1, h.2.2]

theorem spill_vecOpIR {w : Word} {o : VecOpInsn} (h : RspInsn.decodeVecOp w.fn = some o)
    (f : Frame) : ∃ op, Rsp.vecOp w.fn = some op ∧
      (f.vecOpIR w o).spill = f.spill.vecLoop op w.vecE w.rd w.rt w.sa := by
  obtain ⟨op, hop, hl⟩ := doOp_lane h
  refine ⟨op, hop, ?_⟩
  rw [Rsp.vecLoop_eq, vecOpIR, spill_setVec_lanes (sameRegs_doOp f o _ _ _)]
  congr 1
  funext i
  rw [hl, vtSelect_apply]
  rfl

theorem getLsbD_ff : ∀ j, (0xff : Word).getLsbD j = decide (j < 8) :=
  Word.getLsbD_const (by decide) (by omega)

theorem getLsbD_ff00 : ∀ j, (0xff00 : Word).getLsbD j = decide (8 ≤ j ∧ j < 16) :=
  Word.getLsbD_const (by decide) (by omega)

theorem getByte_eq (x : Lanes 8 16) (k : ℕ) : getByte x k = (Rsp.regByte x k).setWidth 32 := by
  have hlo (y : BitVec 16) : (y.setWidth 32 : Word) &&& 0xff = (loByte y).setWidth 32 := by
    apply BitVec.eq_of_getLsbD_eq
    grind [getLsbD_ff, loByte]
  have hhi (y : BitVec 16) :
      ((y.setWidth 32 : Word) >>> 8) &&& 0xff = (hiByte y).setWidth 32 := by
    apply BitVec.eq_of_getLsbD_eq
    grind [getLsbD_ff, hiByte]
  simp only [getByte, Rsp.regByte]
  split_ifs
  · exact hlo _
  · exact hhi _

theorem setByte_eq (x : Lanes 8 16) (k : ℕ) (b8 : Word) :
    setByte x k b8 = Function.update x (Rsp.byteLane k)
      (if k % 2 = 1 then hiByte (x (Rsp.byteLane k)) ++ (b8.extractLsb' 0 8 : Byte)
        else (b8.extractLsb' 0 8 : Byte) ++ loByte (x (Rsp.byteLane k))) := by
  have hlo (y : BitVec 16) :
      (((y.setWidth 32 : Word) &&& 0xff00) ||| (b8 &&& 0xff)).setWidth 16 =
        hiByte y ++ (b8.extractLsb' 0 8 : Byte) := by
    grind [getLsbD_ff, getLsbD_ff00, hiByte]
  have hhi (y : BitVec 16) :
      (((y.setWidth 32 : Word) &&& 0x00ff) ||| (b8 &&& 0xff) <<< 8).setWidth 16 =
        (b8.extractLsb' 0 8 : Byte) ++ loByte y := by
    grind [getLsbD_ff, loByte]
  rw [← hlo, ← hhi]
  simp only [setByte]
  split_ifs <;> rfl

theorem spill_mfc2IR {f : Frame} (h0 : f.c.r 0 = 0) (w : Word) :
    (f.mfc2IR w).spill = (f.spill.setR w.rt
      ((f.spill.vbyte w.rd w.byteE.toNat ++
        f.spill.vbyte w.rd (w.byteE.toNat + 1)).signExtend 32)).zeroR0 := by
  have hpair (a b : Byte) :
      ((a.setWidth 32 : Word) <<< 8 ||| b.setWidth 32).setWidth 16 = a ++ b := by
    grind
  rw [mfc2IR, spill_setGPR h0, getByte_eq, getByte_eq, ← hpair]
  rfl

theorem spill_setVec_setByte (f : Frame) (vd : BitVec 5) (k : ℕ) (b8 : Word) :
    (f.setVec vd (setByte (f.getVec vd) k b8)).spill =
      f.spill.setVbyte vd k (b8.extractLsb' 0 8) := by
  rw [setByte_eq]
  rfl

theorem spill_mtc2IR {f : Frame} (h0 : f.c.r 0 = 0) (w : Word) :
    (f.mtc2IR w).spill =
      (let s := f.spill.setVbyte w.rd w.byteE.toNat ((f.spill.r w.rt).extractLsb' 8 8)
       if w.byteE.toNat ≠ 15 then
         s.setVbyte w.rd (w.byteE.toNat + 1) ((f.spill.r w.rt).extractLsb' 0 8)
       else s) := by
  have hshift (x : Word) : (x >>> 8).extractLsb' 0 8 = x.extractLsb' 8 8 := by grind
  have hfirst := spill_setVec_setByte f w.rd w.byteE.toNat (f.getGPR w.rt >>> 8)
  rw [spill_r h0, ← hshift, ← hfirst, mtc2IR]
  split_ifs with he
  · rw [← spill_setVec_setByte]
    simp only [setVec, getVec, Function.update_self, Function.update_idem]
    rfl
  · rfl

theorem spill_mtc0IR {f : Frame} (h0 : f.c.r 0 = 0) (w addr : Word) :
    (f.mtc0IR w addr).spill = f.spill.mtc0 w.rd (f.spill.r w.rt) := by
  have hs : f.spill = f.c.withRegs f.spill := rfl
  rw [spill_r h0]
  conv_rhs => rw [hs, Rsp.mtc0_withRegs]
  cases hm : f.c.mtc0 w.rd (f.getGPR w.rt) with
  | none => simp only [mtc0IR, rspbtMtc0, hm, Option.map_none, IrOut.spill]
  | some c =>
    have hc : ({ f with c := c } : Frame).spill = c.withRegs f.spill := by
      have hr : c.r = f.c.r := by
        rw [Rsp.mtc0_regs hm]
        rfl
      simp only [spill, Rsp.withRegs, hr]
    simp only [mtc0IR, rspbtMtc0, hm, Option.map_some]
    split_ifs <;> exact congrArg some hc

theorem sa_toNat (sa : BitVec 5) : (sa.setWidth 32).toNat = sa.toNat := by
  have h := sa.isLt
  rw [BitVec.toNat_setWidth]
  omega

/-- An opcode-0 word of the straight kind writes one register, with the same value on
both sides. -/
theorem generateIR_special {w addr : Word} {cls : InsnClass}
    (hc : RspInsn.decodeSpecial w.fn = some cls) (hs : (⟨cls, w, addr⟩ : RspInsn).isStraight)
    (f : Frame) :
    ∃ x, (⟨cls, w, addr⟩ : RspInsn).generateIR f = .cont (f.setGPR w.rd x) ∧
      Rsp.specialOp w.fn w.sa (f.getGPR w.rs) (f.getGPR w.rt) = some x := by
  unfold RspInsn.decodeSpecial at hc
  split at hc
  case h_7 | h_8 | h_9 =>
    obtain rfl := Option.some.inj hc
    cases hs
  case h_1 | h_2 =>
    obtain rfl := Option.some.inj hc
    refine ⟨_, rfl, ?_⟩
    simp only [BitVec.shiftLeft_eq', BitVec.ushiftRight_eq', sa_toNat]
    simp only [*, Rsp.specialOp, BitVec.shiftLeft_eq', BitVec.ushiftRight_eq']
  case h_3 =>
    obtain rfl := Option.some.inj hc
    refine ⟨_, rfl, ?_⟩
    simp only [*, Rsp.specialOp, sa_toNat]
  case h_20 => cases hc
  all_goals
    obtain rfl := Option.some.inj hc
    exact ⟨_, rfl, by simp only [*, Rsp.specialOp, RTypeInsn.doOp]⟩

theorem spill_cont {f : Frame} (h0 : f.c.r 0 = 0) (i : BitVec 5) (x : Word) :
    (IrOut.cont (f.setGPR i x)).spill = (some (f.spill.setR i x)).map Rsp.zeroR0 :=
  congrArg some (spill_setGPR h0 i x)

end Frame

namespace RspInsn

theorem spill_generateIR_cop0 {w addr : Word} {cls : InsnClass}
    (hc : (if w.rs = 0 then some InsnClass.mfc0
      else if w.rs = 4 then some .mtc0 else none) = some cls)
    {f : Frame} (h0 : f.c.r 0 = 0) :
    ((⟨cls, w, addr⟩ : RspInsn).generateIR f).spill = (f.spill.cop0 w).map Rsp.zeroR0 := by
  split_ifs at hc with h1 h2 <;> obtain rfl := Option.some.inj hc
  · have hm : f.spill.mfc0 w.rd = f.c.mfc0 w.rd := rfl
    rw [Rsp.cop0, if_pos h1, hm, generateIR]
    cases f.c.mfc0 w.rd with
    | none => rfl
    | some x => exact Frame.spill_cont h0 _ _
  · rw [Rsp.cop0, if_neg h1, if_pos h2, generateIR, Frame.spill_mtc0IR h0]
    cases hx : f.spill.mtc0 w.rd (f.spill.r w.rt) with
    | none => rfl
    | some s =>
      have hr : s.r 0 = 0 := by
        rw [Rsp.mtc0_regs hx]
        exact (Frame.spill_r_zero f).trans h0
      rw [Option.map_some, Frame.zeroR0_of_r_zero hr]

theorem spill_generateIR_cop2 {w addr : Word} {cls : InsnClass}
    (hc : (if w.isVecOp = false then
        if w.rs = 0 then some InsnClass.mfc2 else if w.rs = 4 then some .mtc2 else none
      else (decodeVecOp w.fn).map .vecOp) = some cls)
    {f : Frame} (h0 : f.c.r 0 = 0) :
    ((⟨cls, w, addr⟩ : RspInsn).generateIR f).spill = (f.spill.cop2 w).map Rsp.zeroR0 := by
  have h0s : f.spill.r 0 = 0 := (Frame.spill_r_zero f).trans h0
  split_ifs at hc with h1 h2 h3
  · obtain rfl := Option.some.inj hc
    simp only [Rsp.cop2, h1, if_true, Rsp.cop2Move, h2]
    exact congrArg some (Frame.spill_mfc2IR h0 w)
  · obtain rfl := Option.some.inj hc
    simp only [Rsp.cop2, h1, if_true, Rsp.cop2Move, h3]
    refine congrArg some ((Frame.spill_mtc2IR h0 w).trans (Frame.zeroR0_of_r_zero ?_).symm)
    split_ifs <;> exact h0s
  · obtain ⟨o, ho, rfl⟩ := Option.map_eq_some_iff.mp hc
    obtain ⟨op, hop, hv⟩ := Frame.spill_vecOpIR ho f
    rw [Rsp.cop2, if_neg h1, hop]
    refine congrArg some (hv.trans (Frame.zeroR0_of_r_zero ?_).symm)
    rw [Rsp.vecLoop_eq]
    exact h0s

/-- Outside memory and control flow, the IR of a word and the interpreter's switch take
one spilled state to the other. -/
theorem spill_generateIR_alu {w addr : Word} {i : RspInsn} (hd : decode w addr = some i)
    (hs : i.isStraight) (hm : i.isMem = false) {f : Frame} (h0 : f.c.r 0 = 0) :
    (i.generateIR f).spill = (f.spill.straight w).map Rsp.zeroR0 := by
  obtain ⟨cls, hc, rfl⟩ := Option.map_eq_some_iff.mp hd
  unfold decodeClass at hc
  rw [Rsp.straight]
  simp only [Frame.spill_r h0]
  split at hc
  case h_1 hop =>
    obtain ⟨x, hx, hop'⟩ := Frame.generateIR_special hc hs f
    rw [hx, Frame.spill_cont h0]
    simp only [hop, hop', Option.map_some]
  case h_2 hop =>
    split_ifs at hc <;> (obtain rfl := Option.some.inj hc; cases hs)
  case h_17 hop =>
    simp only [hop]
    exact spill_generateIR_cop0 hc h0
  case h_18 hop =>
    simp only [hop]
    exact spill_generateIR_cop2 hc h0
  all_goals rename_i hop
  -- control transfers
  case h_3 | h_4 | h_5 | h_6 | h_7 | h_8 =>
    obtain rfl := Option.some.inj hc
    cases hs
  -- loads and stores
  case h_19 | h_20 | h_21 | h_22 | h_23 | h_24 | h_25 | h_26 =>
    obtain rfl := Option.some.inj hc
    cases hm
  case h_27 | h_28 =>
    obtain ⟨o, ho, rfl⟩ := Option.map_eq_some_iff.mp hc
    cases hm
  -- immediates
  case h_9 | h_10 | h_11 | h_12 | h_13 | h_14 | h_15 | h_16 =>
    obtain rfl := Option.some.inj hc
    rw [hop]
    exact Frame.spill_cont h0 _ _
  cases hc

/-- The switch sends a straight-line word to `straight` and leaves the sequencing alone. -/
theorem switch_of_straight {w addr : Word} {i : RspInsn} (hd : decode w addr = some i)
    (hs : i.isStraight) (s : Rsp) (nextPc : Word) :
    s.switch nextPc w =
      (s.straight w).map fun s' => ⟨s', (nextPc + 4) &&& 0xffc, false⟩ := by
  obtain ⟨cls, hc, rfl⟩ := Option.map_eq_some_iff.mp hd
  unfold Rsp.switch
  split
  case h_1 hop =>
    split
    case h_4 => rfl
    all_goals
      rename_i hfn
      simp only [decodeClass, hop, decodeSpecial, hfn] at hc
      obtain rfl := Option.some.inj hc
      cases hs
  case h_2 hop =>
    simp only [decodeClass, hop] at hc
    split_ifs at hc <;> (obtain rfl := Option.some.inj hc; cases hs)
  case h_9 => rfl
  all_goals
    rename_i hop
    simp only [decodeClass, hop] at hc
    obtain rfl := Option.some.inj hc
    cases hs

/-- Outside memory and control flow the IR of a word leaves what the interpreter's switch
leaves, at every element field and every choice of registers. -/
theorem generateIR_eq_switch {w addr : Word} {i : RspInsn} (hd : decode w addr = some i)
    (hc : i.isControl = false) (hb : i.isBreak = false) (hm : i.isMem = false)
    (f : Frame) (h0 : f.c.r 0 = 0) (nextPc : Word) :
    (i.generateIR f).spill = (f.spill.switch nextPc w).map fun fl => fl.s.zeroR0 := by
  have hs : i.isStraight := by simp only [isStraight, hc, hb, Bool.not_false, Bool.and_self]
  rw [switch_of_straight hd hs, spill_generateIR_alu hd hs hm h0, Option.map_map]
  rfl

/-- `vcl $v1, $v2, $v3[5]` in the initial state. -/
theorem generateIR_eq_switch_vcl :
    ((⟨.vecOp .vcl, 0x4aa31064, 0⟩ : RspInsn).generateIR (Frame.enter Rsp.init)).spill =
      ((Frame.enter Rsp.init).spill.switch 4 0x4aa31064).map fun fl => fl.s.zeroR0 :=
  generateIR_eq_switch (rfl : decode 0x4aa31064 0 = some ⟨.vecOp .vcl, 0x4aa31064, 0⟩) rfl rfl rfl
    (Frame.enter Rsp.init) rfl 4

end RspInsn

end RspBt
