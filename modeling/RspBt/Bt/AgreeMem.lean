import Mathlib.Tactic.FinCases
import RspBt.Rsp.Imem
import RspBt.Bt.AgreeAlu

namespace RspBt

open Lib

def VecMemInsn.shift : VecMemInsn → ℕ
  | .lsv | .ssv => 1
  | .llv | .slv => 2
  | .ldv | .sdv => 3
  | .lqv | .lrv | .sqv => 4

def MemInsn.opcode : MemInsn → BitVec 6
  | .lb => 0x20
  | .lh => 0x21
  | .lw => 0x23
  | .lbu => 0x24
  | .lhu => 0x25
  | .sb => 0x28
  | .sh => 0x29
  | .sw => 0x2b

namespace Rsp

/-- What the loop of a vector load or store runs over. -/
structure VecAccess where
  first : ℕ
  ea : Word
  count : ℕ

def loadAccess (o : VecMemInsn) (e : ℕ) (ea : Word) : VecAccess :=
  match o with
  | .lqv => ⟨e, ea, min (rowLeft ea) (16 - e)⟩
  | .lrv => ⟨rowStart ea e, ea &&& ~~~15, 16 - rowStart ea e⟩
  | _ => ⟨e, ea, min (2 ^ o.shift) (16 - e)⟩

def storeAccess (o : VecMemInsn) (e : ℕ) (ea : Word) : VecAccess :=
  match o with
  | .sqv => ⟨e, ea, rowLeft ea⟩
  | _ => ⟨e, ea, 2 ^ o.shift⟩

theorem lwc2_eq_loadBytes {w : Word} {o : VecMemInsn} (h : RspInsn.decodeVecLoad w.rd = some o)
    (s : Rsp) :
    let a := loadAccess o w.byteE.toNat (s.vecEa w o.shift)
    s.lwc2 w = some (s.loadBytes w.rt a.first a.ea a.count) := by
  unfold RspInsn.decodeVecLoad at h
  split at h
  case h_6 => cases h
  all_goals
    rename_i hrd
    obtain rfl := Option.some.inj h
    simp only [lwc2, hrd, loadAccess, loadFixed]
    rfl

theorem swc2_eq_storeBytes {w : Word} {o : VecMemInsn} (h : RspInsn.decodeVecStore w.rd = some o)
    (s : Rsp) :
    let a := storeAccess o w.byteE.toNat (s.vecEa w o.shift)
    s.swc2 w = some (s.storeBytes w.rt a.first a.ea a.count) := by
  unfold RspInsn.decodeVecStore at h
  split at h
  case h_5 => cases h
  all_goals
    rename_i hrd
    obtain rfl := Option.some.inj h
    simp only [swc2, hrd, storeAccess]
    rfl

end Rsp

namespace Frame

theorem fitsInDmem_iff {ea : Word} {n : ℕ} (hn : n ≤ 0x1000) :
    fitsInDmem ea n = true ↔ Rsp.dmemIdx ea + n ≤ 0x1000 := by
  rw [fitsInDmem, BitVec.ule, decide_eq_true_iff, BitVec.toNat_ofNat, Rsp.dmemIdx]
  omega

theorem bswap16_append (a b : Byte) : bswap16 (a ++ b) = b ++ a := by
  simp only [bswap16, loByte_append, hiByte_append]

theorem bswap32_append (a b c d : Byte) : bswap32 (a ++ b ++ c ++ d) = d ++ c ++ b ++ a := by
  simp only [bswap32]
  grind

theorem loadMem_one (f : Frame) (ea : Word) :
    f.loadMem ea 1 = (f.spill.rd8 ea).setWidth 32 := rfl

theorem loadMem_two (f : Frame) (ea : Word) :
    f.loadMem ea 2 = (f.spill.rd16 ea).setWidth 32 := by
  rw [loadMem, if_neg (by decide), if_pos rfl]
  split_ifs with h
  · rw [Rsp.rd16_of_fits _ ((fitsInDmem_iff (by decide)).mp h), load16, bswap16_append]
    rfl
  · rfl

theorem loadMem_four (f : Frame) (ea : Word) : f.loadMem ea 4 = f.spill.rd32 ea := by
  rw [loadMem, if_neg (show ¬ 4 = 1 by decide), if_neg (show ¬ 4 = 2 by decide)]
  split_ifs with h
  · rw [Rsp.rd32_of_fits _ ((fitsInDmem_iff (by decide)).mp h), load32, bswap32_append]
    rfl
  · rfl

theorem storeMem_one (f : Frame) (ea x : Word) :
    (f.storeMem ea x 1).spill = f.spill.wr8 ea (x.setWidth 8) := rfl

theorem storeMem_two (f : Frame) (ea x : Word) :
    (f.storeMem ea x 2).spill = f.spill.wr16 ea (x.setWidth 16) := by
  rw [storeMem, if_neg (by decide), if_pos rfl]
  split_ifs with h
  · rw [Rsp.wr16_of_fits _ ((fitsInDmem_iff (by decide)).mp h), store16, bswap16, loByte_append,
      hiByte_append]
    rfl
  · rfl

theorem storeMem_four (f : Frame) (ea x : Word) :
    (f.storeMem ea x 4).spill = f.spill.wr32 ea x := by
  rw [storeMem, if_neg (show ¬ 4 = 1 by decide), if_neg (show ¬ 4 = 2 by decide)]
  split_ifs with h
  · have hb : (bswap32 x).extractLsb' 0 8 = x.extractLsb' 24 8 ∧
        (bswap32 x).extractLsb' 8 8 = x.extractLsb' 16 8 ∧
        (bswap32 x).extractLsb' 16 8 = x.extractLsb' 8 8 ∧
        (bswap32 x).extractLsb' 24 8 = x.extractLsb' 0 8 := by
      simp only [bswap32]
      grind
    obtain ⟨b0, b1, b2, b3⟩ := hb
    rw [Rsp.wr32_of_fits _ ((fitsInDmem_iff (by decide)).mp h), store32, b0, b1, b2, b3]
    rfl
  · rfl

theorem toBytes_apply (x : Lanes 8 16) (i : Fin 16) : toBytes x i = Rsp.regByte x i := by
  fin_cases i <;> rfl

theorem regByte_fromBytes (b : Lanes 16 8) (i : Fin 16) : Rsp.regByte (fromBytes b) i = b i := by
  fin_cases i <;> first | exact hiByte_append _ _ | exact loByte_append _ _

theorem rowCount8_toNat (ea : Word) : (rowCount8 ea).toNat = Rsp.rowLeft ea := by
  have h : (ea &&& 15).toNat < 16 := by
    rw [BitVec.toNat_and]
    exact Nat.and_lt_two_pow _ (by decide : (15 : Word).toNat < 2 ^ 4)
  rw [rowCount8, BitVec.toNat_setWidth, Rsp.rowLeft]
  bv_omega

theorem take_left (ea : Word) (i : Fin 16) :
    Lanes.icmpUlt byteIndexVector (splat8 (rowCount8 ea)) i = decide (i.val < Rsp.rowLeft ea) := by
  simp only [Lanes.icmpUlt, byteIndexVector, splat8, Lanes.splat, BitVec.ult, rowCount8_toNat,
    BitVec.toNat_ofNat]
  congr 2
  omega

theorem take_right (ea : Word) (i : Fin 16) :
    Lanes.icmpUge byteIndexVector (splat8 (rowCount8 ea)) i = decide (Rsp.rowLeft ea ≤ i.val) := by
  simp only [Lanes.icmpUge, byteIndexVector, splat8, Lanes.splat, BitVec.ule, rowCount8_toNat,
    BitVec.toNat_ofNat]
  congr 2
  omega

theorem spillFor_reads (f : Frame) (base vt : BitVec 5) :
    (f.spillFor base vt).r base = f.spill.r base ∧ (f.spillFor base vt).v vt = f.spill.v vt ∧
      (f.spillFor base vt).mem = f.spill.mem := by
  refine ⟨?_, Function.update_self .., ?_⟩
  · by_cases hb : base = 0
    · simp only [spillFor, spill, hb, ne_eq, not_true, if_false, if_true, Rsp.setV]
    · simp only [spillFor, spill, getGPR, hb, ne_eq, not_false_eq_true, if_true, if_false,
        Rsp.setV, Rsp.setR, Function.update_self]
  · simp only [spillFor]
    split_ifs <;> rfl

theorem spill_spillFor (f : Frame) (base vt : BitVec 5) :
    ({ f with c := f.spillFor base vt } : Frame).spill = f.spill := by
  by_cases hb : base = 0
  · simp only [spillFor, hb, ne_eq, not_true, if_false]
    rfl
  · have hr : (f.c.setR base (f.getGPR base)).r 0 = f.c.r 0 :=
      Function.update_of_ne (Ne.symm hb) _ _
    simp only [spillFor, ne_eq, hb, not_false_eq_true, if_true]
    simp only [spill, Rsp.setV, hr]
    rfl

theorem spill_vecLoadSlow {w : Word} {o : VecMemInsn}
    (h : RspInsn.decodeVecLoad w.rd = some o) (f : Frame) :
    (f.vecLoadSlow w w.rs w.rt).map spill = f.spill.lwc2 w := by
  obtain ⟨hr, hv, hm⟩ := f.spillFor_reads w.rs w.rt
  have hea : (f.spillFor w.rs w.rt).vecEa w o.shift = f.spill.vecEa w o.shift := by
    rw [Rsp.vecEa, hr, Rsp.vecEa]
  have hset (c : Rsp) (x : Lanes 8 16) :
      ({ f with c := c.setV w.rt x }.setVec w.rt x).spill =
        ({ f with c := c } : Frame).spill.setV w.rt x := rfl
  rw [vecLoadSlow, Rsp.lwc2_eq_loadBytes h, Rsp.lwc2_eq_loadBytes h, hea]
  simp only [Option.map_some]
  rw [Rsp.loadBytes_setV f.spill, Rsp.loadBytes_setV (f.spillFor w.rs w.rt),
    ← Rsp.loadBytes_congr hv hm]
  simp only [Rsp.setV, Function.update_self] at hset ⊢
  rw [hset, spill_spillFor]

/-- A fast load is right when each byte of its result is the byte the loop leaves. -/
theorem spill_setVec_fromBytes {f : Frame} {vt : BitVec 5} {b : Lanes 16 8} {e : ℕ} {ea : Word}
    {n : ℕ} (h : ∀ i : Fin 16, b i = (f.spill.loadBytes vt e ea n).vbyte vt i) :
    (f.setVec vt (fromBytes b)).spill = f.spill.loadBytes vt e ea n := by
  rw [Rsp.loadBytes_setV, spill_setVec]
  congr 1
  refine Rsp.reg_ext fun i hi => ?_
  exact (regByte_fromBytes b ⟨i, hi⟩).trans (h ⟨i, hi⟩)

theorem blend_apply {n : ℕ} (old : Lanes 16 8) (m : ℕ → Byte) (p e : ℕ) (i : Fin 16) :
    blend old (loadVec n m p) e i =
      if e ≤ i.val ∧ i.val < e + n then m (p + (i.val - e)) else old i := by
  simp only [blend, loadVec]
  split_ifs <;> rfl

theorem spill_vecLoad_fixed {w : Word} {o : VecMemInsn}
    (h : RspInsn.decodeVecLoad w.rd = some o) (ho : o = .lsv ∨ o = .llv ∨ o = .ldv) (f : Frame) :
    (f.vecLoad w w.rs w.rt (f.spill.vecEa w o.shift) w.byteE.toNat (2 ^ o.shift) .fixed).map spill =
      f.spill.lwc2 w := by
  have he := w.byteE.isLt
  have hacc : Rsp.loadAccess o w.byteE.toNat (f.spill.vecEa w o.shift) =
      ⟨w.byteE.toNat, f.spill.vecEa w o.shift, min (2 ^ o.shift) (16 - w.byteE.toNat)⟩ := by
    rcases ho with rfl | rfl | rfl <;> rfl
  have hn : 2 ^ o.shift ≤ 16 := by rcases ho with rfl | rfl | rfl <;> decide
  rw [vecLoad]
  split_ifs with hfast
  · have hfit := (fitsInDmem_iff (by omega)).mp hfast.2
    rw [Rsp.lwc2_eq_loadBytes h, hacc]
    simp only [Nat.min_eq_left (show 2 ^ o.shift ≤ 16 - w.byteE.toNat by omega)]
    refine congrArg some (spill_setVec_fromBytes fun i => ?_)
    rw [blend_apply, Rsp.vbyte_loadBytes _ _ _ _ _ hfast.1 _ i.isLt]
    split_ifs with hi
    · rw [Rsp.rd8_add _ _ _ (by omega)]
      rfl
    · exact toBytes_apply _ _
  · exact spill_vecLoadSlow h f

theorem spill_lqv {w : Word} (h : RspInsn.decodeVecLoad w.rd = some .lqv) (f : Frame) :
    (f.vecLoad w w.rs w.rt (f.spill.vecEa w 4) w.byteE.toNat 16 .rowLeft).map spill =
      f.spill.lwc2 w := by
  rw [vecLoad]
  split_ifs with hfast
  · obtain ⟨he, hle⟩ := hfast
    have hrow := Rsp.rowLeft_eq (f.spill.vecEa w 4)
    have hwin : Rsp.dmemIdx (f.spill.vecEa w 4) ≤ 0xff0 := by
      rwa [BitVec.ule, decide_eq_true_iff] at hle
    rw [Rsp.lwc2_eq_loadBytes h, he]
    refine congrArg some (spill_setVec_fromBytes fun i => ?_)
    simp only [Rsp.loadAccess, VecMemInsn.shift]
    rw [Rsp.vbyte_loadBytes _ _ _ _ _ (by omega) _ i.isLt, Lanes.select, take_left]
    by_cases hi : i.val < Rsp.rowLeft (f.spill.vecEa w 4)
    · rw [if_pos (decide_eq_true hi), if_pos (by omega), Rsp.rd8_add _ _ _ (by omega)]
      rfl
    · rw [if_neg (by simpa using hi), if_neg (by omega)]
      exact toBytes_apply _ _
  · exact spill_vecLoadSlow h f

theorem spill_lrv {w : Word} (h : RspInsn.decodeVecLoad w.rd = some .lrv) (f : Frame) :
    (f.vecLoad w w.rs w.rt (f.spill.vecEa w 4) w.byteE.toNat 16 .rowRight).map spill =
      f.spill.lwc2 w := by
  rw [vecLoad]
  split_ifs with hfast
  · obtain ⟨he, hle⟩ := hfast
    have hrow := Rsp.rowLeft_eq (f.spill.vecEa w 4)
    have hlt := Rsp.dmemIdx_lt (f.spill.vecEa w 4)
    have hwin : 16 ≤ Rsp.dmemIdx (f.spill.vecEa w 4) := by
      rwa [BitVec.ule, decide_eq_true_iff] at hle
    have hbase : dmemPtr ((f.spill.vecEa w 4 &&& 0xfff) - 16) =
        Rsp.dmemIdx (f.spill.vecEa w 4) - 16 := by
      simp only [dmemPtr, Rsp.dmemIdx] at *
      bv_omega
    rw [Rsp.lwc2_eq_loadBytes h, he]
    refine congrArg some (spill_setVec_fromBytes fun i => ?_)
    simp only [Rsp.loadAccess, VecMemInsn.shift, Rsp.rowStart_zero]
    rw [Rsp.vbyte_loadBytes _ _ _ _ _ (by omega) _ i.isLt, Lanes.select, take_right]
    by_cases hi : Rsp.rowLeft (f.spill.vecEa w 4) ≤ i.val
    · have hidx := Rsp.dmemIdx_row (f.spill.vecEa w 4)
      rw [if_pos (decide_eq_true hi), if_pos (by omega), Rsp.rd8_add _ _ _ (by omega), hidx,
        loadVec, hbase]
      exact congrArg f.c.mem (by omega)
    · rw [if_neg (by simpa using hi), if_neg (by omega)]
      exact toBytes_apply _ _
  · exact spill_vecLoadSlow h f

theorem dmemPtr_and (ea : Word) : dmemPtr (ea &&& 0xfff) = Rsp.dmemIdx ea := rfl

theorem spill_vecStoreSlow {w : Word} {o : VecMemInsn}
    (h : RspInsn.decodeVecStore w.rd = some o) (f : Frame) :
    (f.vecStoreSlow w w.rs w.rt).map spill = f.spill.swc2 w := by
  obtain ⟨hr, hv, hm⟩ := f.spillFor_reads w.rs w.rt
  have hea : (f.spillFor w.rs w.rt).vecEa w o.shift = f.spill.vecEa w o.shift := by
    rw [Rsp.vecEa, hr, Rsp.vecEa]
  have hset (c : Rsp) (m : ℕ → Byte) : ({ f with c := { c with mem := m } } : Frame).spill =
      { ({ f with c := c } : Frame).spill with mem := m } := rfl
  rw [vecStoreSlow, Rsp.swc2_eq_storeBytes h, Rsp.swc2_eq_storeBytes h, hea]
  simp only [Option.map_some, Rsp.storeBytes_eq_writes, Rsp.vbyte, hv, hm]
  rw [hset, spill_spillFor]

/-- A fast store is right when it writes the bytes the loop writes, from `ea` on. -/
theorem spill_setMem {f : Frame} {m : ℕ → Byte} {vt : BitVec 5} {e n : ℕ} {ea : Word}
    (hfit : Rsp.dmemIdx ea + n ≤ 0x1000)
    (h : ∀ a, m a = if Rsp.dmemIdx ea ≤ a ∧ a < Rsp.dmemIdx ea + n
      then f.spill.vbyte vt (e + (a - Rsp.dmemIdx ea)) else f.c.mem a) :
    (f.setMem m).spill = f.spill.storeBytes vt e ea n := by
  have haddr : writes (fun i => Rsp.dmemIdx (ea + BitVec.ofNat 32 i))
      (fun i => f.spill.vbyte vt (e + i)) n f.spill.mem = m := by
    rw [writes_congr (fun i hi => Rsp.dmemIdx_add (by omega)), writes_consecutive]
    funext a
    rw [h a, memcpy, Nat.zero_add]
    rfl
  rw [Rsp.storeBytes_eq_writes, haddr]
  rfl

theorem storeVec_apply {n : ℕ} (m : ℕ → Byte) (p : ℕ) (x : Lanes n 8) (a : ℕ) (b : ℕ → Byte)
    (hb : ∀ i : Fin n, x i = b i) :
    storeVec m p x a = if p ≤ a ∧ a < p + n then b (a - p) else m a := by
  simp only [storeVec, hb]
  split_ifs <;> rfl

theorem spill_vecStore_fixed {w : Word} {o : VecMemInsn}
    (h : RspInsn.decodeVecStore w.rd = some o) (ho : o = .ssv ∨ o = .slv ∨ o = .sdv) (f : Frame) :
    (f.vecStore w w.rs w.rt (f.spill.vecEa w o.shift) w.byteE.toNat (2 ^ o.shift) .fixed).map spill =
      f.spill.swc2 w := by
  have hacc : Rsp.storeAccess o w.byteE.toNat (f.spill.vecEa w o.shift) =
      ⟨w.byteE.toNat, f.spill.vecEa w o.shift, 2 ^ o.shift⟩ := by
    rcases ho with rfl | rfl | rfl <;> rfl
  have hn : 2 ^ o.shift ≤ 16 := by rcases ho with rfl | rfl | rfl <;> decide
  rw [vecStore]
  split_ifs with hfast
  · have hfit := (fitsInDmem_iff (by omega)).mp hfast.2
    rw [Rsp.swc2_eq_storeBytes h, hacc]
    refine congrArg some (spill_setMem hfit fun a => ?_)
    refine storeVec_apply _ _ _ a (fun i => f.spill.vbyte w.rt (w.byteE.toNat + i)) fun i => ?_
    exact toBytes_apply _ _
  · exact spill_vecStoreSlow h f

theorem spill_sqv {w : Word} (h : RspInsn.decodeVecStore w.rd = some .sqv) (f : Frame) :
    (f.vecStore w w.rs w.rt (f.spill.vecEa w 4) w.byteE.toNat 16 .rowLeft).map spill =
      f.spill.swc2 w := by
  rw [vecStore]
  split_ifs with hfast
  · obtain ⟨he, hle⟩ := hfast
    have hrow := Rsp.rowLeft_eq (f.spill.vecEa w 4)
    have hwin : Rsp.dmemIdx (f.spill.vecEa w 4) ≤ 0xff0 := by
      rwa [BitVec.ule, decide_eq_true_iff] at hle
    rw [Rsp.swc2_eq_storeBytes h, he]
    simp only [Rsp.storeAccess, VecMemInsn.shift]
    refine congrArg some (spill_setMem (by omega) fun a => ?_)
    -- the other bytes of the window are written back as they were
    rw [storeVec_apply _ _ _ a (fun i => if i < Rsp.rowLeft (f.spill.vecEa w 4) then
      f.spill.vbyte w.rt i else f.c.mem (Rsp.dmemIdx (f.spill.vecEa w 4) + i))]
    · rw [dmemPtr_and]
      split_ifs
      · rw [Nat.zero_add]
      · omega
      · omega
      · exact congrArg f.c.mem (by omega)
      · omega
      · rfl
    · intro i
      rw [Lanes.select, take_left, toBytes_apply]
      simp only [decide_eq_true_eq]
      rfl
  · exact spill_vecStoreSlow h f

theorem spill_vecMemIR_load {w : Word} {o : VecMemInsn} (h : RspInsn.decodeVecLoad w.rd = some o)
    {f : Frame} (h0 : f.c.r 0 = 0) : (f.vecMemIR w o).map spill = f.spill.lwc2 w := by
  have hea (n : ℕ) : f.vecEa w n = f.spill.vecEa w n := by rw [vecEa, Rsp.vecEa, spill_r h0]
  have h' := h
  unfold RspInsn.decodeVecLoad at h'
  split at h' <;> first | contradiction | obtain rfl := Option.some.inj h'
  all_goals simp only [vecMemIR, hea]
  · exact spill_vecLoad_fixed h (by decide) f
  · exact spill_vecLoad_fixed h (by decide) f
  · exact spill_vecLoad_fixed h (by decide) f
  · exact spill_lqv h f
  · exact spill_lrv h f

theorem spill_vecMemIR_store {w : Word} {o : VecMemInsn} (h : RspInsn.decodeVecStore w.rd = some o)
    {f : Frame} (h0 : f.c.r 0 = 0) : (f.vecMemIR w o).map spill = f.spill.swc2 w := by
  have hea (n : ℕ) : f.vecEa w n = f.spill.vecEa w n := by rw [vecEa, Rsp.vecEa, spill_r h0]
  have h' := h
  unfold RspInsn.decodeVecStore at h'
  split at h' <;> first | contradiction | obtain rfl := Option.some.inj h'
  all_goals simp only [vecMemIR, hea]
  · exact spill_vecStore_fixed h (by decide) f
  · exact spill_vecStore_fixed h (by decide) f
  · exact spill_vecStore_fixed h (by decide) f
  · exact spill_sqv h f

end Frame

theorem IrOut.spill_ofOption (f : Option Frame) : (IrOut.ofOption f).spill = f.map Frame.spill := by
  cases f <;> rfl

namespace RspInsn

theorem setWidth_byte (x : Byte) : (x.setWidth 32 : Word).setWidth 8 = x := by
  rw [BitVec.setWidth_setWidth_of_le _ (by decide), BitVec.setWidth_eq]

theorem setWidth_half (x : BitVec 16) : (x.setWidth 32 : Word).setWidth 16 = x := by
  rw [BitVec.setWidth_setWidth_of_le _ (by decide), BitVec.setWidth_eq]

theorem decodeClass_access {w addr : Word} {cls : InsnClass} (hc : decodeClass w = some cls)
    (hm : (⟨cls, w, addr⟩ : RspInsn).isMem) :
    (∃ o, cls = .mem o ∧ w.op = o.opcode) ∨
    (∃ o, cls = .vecMem o ∧ w.op = 0x32 ∧ decodeVecLoad w.rd = some o) ∨
    (∃ o, cls = .vecMem o ∧ w.op = 0x3a ∧ decodeVecStore w.rd = some o) := by
  unfold decodeClass at hc
  split at hc
  all_goals rename_i hop
  case h_19 | h_20 | h_21 | h_22 | h_23 | h_24 | h_25 | h_26 =>
    exact .inl ⟨_, (Option.some.inj hc).symm, hop⟩
  case h_27 =>
    obtain ⟨o, ho, rfl⟩ := Option.map_eq_some_iff.mp hc
    exact .inr (.inl ⟨o, rfl, hop, ho⟩)
  case h_28 =>
    obtain ⟨o, ho, rfl⟩ := Option.map_eq_some_iff.mp hc
    exact .inr (.inr ⟨o, rfl, hop, ho⟩)
  -- every other opcode decodes to a class that is no access
  case h_1 =>
    unfold decodeSpecial at hc
    split at hc <;> first | (obtain rfl := Option.some.inj hc; cases hm) | cases hc
  case h_2 | h_17 =>
    split_ifs at hc <;> (obtain rfl := Option.some.inj hc; cases hm)
  case h_18 =>
    split_ifs at hc
    · obtain rfl := Option.some.inj hc
      cases hm
    · obtain rfl := Option.some.inj hc
      cases hm
    · obtain ⟨o, ho, rfl⟩ := Option.map_eq_some_iff.mp hc
      cases hm
  case h_29 => cases hc
  all_goals
    obtain rfl := Option.some.inj hc
    cases hm

/-- On memory too, the IR of a word and the interpreter's switch take one spilled state
to the other. -/
theorem spill_generateIR_mem {w addr : Word} {i : RspInsn} (hd : decode w addr = some i)
    (hm : i.isMem) {f : Frame} (h0 : f.c.r 0 = 0) :
    (i.generateIR f).spill = (f.spill.straight w).map Rsp.zeroR0 := by
  obtain ⟨cls, hc, rfl⟩ := Option.map_eq_some_iff.mp hd
  have h0s : f.spill.r 0 = 0 := (Frame.spill_r_zero f).trans h0
  have hea : f.effAddr w = f.spill.r w.rs + w.simm := by rw [Frame.effAddr, Frame.spill_r h0]
  have hst (s : Rsp) (hr : s.r = f.spill.r) : some s = (some s).map Rsp.zeroR0 :=
    congrArg some (Frame.zeroR0_of_r_zero (by rw [hr, h0s])).symm
  rw [Rsp.straight]
  obtain ⟨o, rfl, hop⟩ | ⟨o, rfl, hop, ho⟩ | ⟨o, rfl, hop, ho⟩ := decodeClass_access hc hm
  · cases o
    case sb | sh | sw =>
      simp only [hop, MemInsn.opcode, generateIR, Frame.memIR, hea, ← Frame.spill_r h0,
        IrOut.spill, Frame.storeMem_one, Frame.storeMem_two, Frame.storeMem_four]
      exact hst _ rfl
    all_goals
      simp only [hop, MemInsn.opcode, generateIR, Frame.memIR, hea, Frame.loadMem_one,
        Frame.loadMem_two, Frame.loadMem_four, setWidth_byte, setWidth_half]
      exact Frame.spill_cont h0 _ _
  · simp only [hop, generateIR]
    rw [IrOut.spill_ofOption, Frame.spill_vecMemIR_load ho h0, Rsp.lwc2_eq_loadBytes ho,
      Rsp.loadBytes_setV]
    exact hst _ rfl
  · simp only [hop, generateIR]
    rw [IrOut.spill_ofOption, Frame.spill_vecMemIR_store ho h0, Rsp.swc2_eq_storeBytes ho,
      Rsp.storeBytes_eq_writes]
    exact hst _ rfl

/-- The IR of every straight-line word and the interpreter's switch agree. -/
theorem spill_generateIR {w addr : Word} {i : RspInsn} (hd : decode w addr = some i)
    (hs : i.isStraight) {f : Frame} (h0 : f.c.r 0 = 0) :
    (i.generateIR f).spill = (f.spill.straight w).map Rsp.zeroR0 := by
  by_cases hm : i.isMem
  · exact spill_generateIR_mem hd hm h0
  · exact spill_generateIR_alu hd hs (by simpa using hm) h0

end RspInsn

structure Rsp.OnlyDest (s s' : Rsp) (rt : BitVec 5) : Prop where
  r : ∀ i, i ≠ rt → s'.r i = s.r i
  v : ∀ i, i ≠ rt → s'.v i = s.v i
  imem : s.KeepsImem s'
  rest : s' = { s with r := s'.r, v := s'.v, mem := s'.mem }

namespace Rsp

theorem onlyDest_setR (s : Rsp) (rt : BitVec 5) (x : Word) : OnlyDest s (s.setR rt x) rt where
  r _ hi := Function.update_of_ne hi _ _
  v _ _ := rfl
  imem := .refl s
  rest := rfl

theorem onlyDest_setV (s : Rsp) (rt : BitVec 5) (x : Lanes 8 16) : OnlyDest s (s.setV rt x) rt where
  r _ _ := rfl
  v _ hi := Function.update_of_ne hi _ _
  imem := .refl s
  rest := rfl

theorem OnlyDest.of_mem {s : Rsp} {m : ℕ → Byte} (h : s.KeepsImem { s with mem := m })
    (rt : BitVec 5) : OnlyDest s { s with mem := m } rt where
  r _ _ := rfl
  v _ _ := rfl
  imem := h
  rest := rfl

theorem OnlyDest.zeroR0 {s s' : Rsp} {rt : BitVec 5} (h : OnlyDest s s' rt) (h0 : s.r 0 = 0) :
    OnlyDest s s'.zeroR0 rt where
  r i hi := by
    by_cases hz : i = 0
    · subst hz
      rw [h0]
      simp only [Rsp.zeroR0, Rsp.setR, Function.update_self]
    · exact (Function.update_of_ne hz _ _).trans (h.r i hi)
  v := h.v
  imem := h.imem
  rest := by
    have hr := h.rest
    simp only [Rsp.zeroR0, Rsp.setR]
    rw [hr]

end Rsp

namespace RspInsn

/-- Every access the translator implements, the interpreter completes. -/
theorem straight_mem {w addr : Word} {i : RspInsn} (hd : decode w addr = some i)
    (hm : i.isMem) (s : Rsp) : ∃ s', s.straight w = some s' ∧ s.OnlyDest s' w.rt := by
  obtain ⟨cls, hc, rfl⟩ := Option.map_eq_some_iff.mp hd
  rw [Rsp.straight]
  obtain ⟨o, rfl, hop⟩ | ⟨o, rfl, hop, ho⟩ | ⟨o, rfl, hop, ho⟩ := decodeClass_access hc hm
  · cases o
    case sb => rw [hop]; exact ⟨_, rfl, .of_mem (Rsp.keepsImem_wr8 s _ _) _⟩
    case sh => rw [hop]; exact ⟨_, rfl, .of_mem (Rsp.keepsImem_wr16 s _ _) _⟩
    case sw => rw [hop]; exact ⟨_, rfl, .of_mem (Rsp.keepsImem_wr32 s _ _) _⟩
    all_goals
      rw [hop]
      exact ⟨_, rfl, Rsp.onlyDest_setR s _ _⟩
  · simp only [hop]
    rw [Rsp.lwc2_eq_loadBytes ho, Rsp.loadBytes_setV]
    exact ⟨_, rfl, Rsp.onlyDest_setV s _ _⟩
  · simp only [hop]
    rw [Rsp.swc2_eq_storeBytes ho]
    refine ⟨_, rfl, ?_⟩
    have hk := s.keepsImem_storeBytes w.rt (Rsp.storeAccess o w.byteE.toNat (s.vecEa w o.shift)).first
      (Rsp.storeAccess o w.byteE.toNat (s.vecEa w o.shift)).ea
      (Rsp.storeAccess o w.byteE.toNat (s.vecEa w o.shift)).count
    rw [Rsp.storeBytes_eq_writes] at hk ⊢
    exact .of_mem hk _

theorem isStraight_of_isMem {i : RspInsn} (h : i.isMem) : i.isStraight := by
  obtain ⟨cls, w, addr⟩ := i
  cases cls <;> first | rfl | cases h

theorem generateIR_mem_cont {i : RspInsn} (hm : i.isMem) {f : Frame} {s : Rsp}
    (h : (i.generateIR f).spill = some s) : ∃ f', i.generateIR f = .cont f' ∧ f'.spill = s := by
  obtain ⟨cls, w, addr⟩ := i
  cases cls
  case mem o => exact ⟨_, rfl, Option.some.inj h⟩
  case vecMem o =>
    simp only [generateIR] at h ⊢
    rw [IrOut.spill_ofOption] at h
    obtain ⟨f', hf, rfl⟩ := Option.map_eq_some_iff.mp h
    exact ⟨f', by rw [hf]; rfl, rfl⟩
  all_goals cases hm

/-- Every load and store goes on with what the interpreter leaves: one register changed, or
bytes of DMEM. -/
theorem generateIR_access_eq_switch {w addr : Word} {i : RspInsn} (hd : decode w addr = some i)
    (hm : i.isMem) (f : Frame) (h0 : f.c.r 0 = 0) (nextPc : Word) :
    ∃ f', i.generateIR f = .cont f' ∧
      (f.spill.switch nextPc w).map (fun fl => fl.s.zeroR0) = some f'.spill ∧
      f.spill.OnlyDest f'.spill w.rt := by
  have hs : i.isStraight := isStraight_of_isMem hm
  obtain ⟨s, hst, hdest⟩ := straight_mem hd hm f.spill
  have hspill := spill_generateIR hd hs h0
  rw [hst, Option.map_some] at hspill
  obtain ⟨f', hf, hf'⟩ := generateIR_mem_cont hm hspill
  refine ⟨f', hf, ?_, ?_⟩
  · rw [switch_of_straight hd hs, hst, hf']
    rfl
  · rw [hf']
    exact hdest.zeroR0 ((Frame.spill_r_zero f).trans h0)

/-- `sdv $v1[12], 8($0)`: the element field sends it to the slow path. -/
theorem generateIR_access_eq_switch_sdv :
    ∃ f', (⟨.vecMem .sdv, 0xe8011e01, 0⟩ : RspInsn).generateIR (Frame.enter Rsp.init) = .cont f' ∧
      ((Frame.enter Rsp.init).spill.switch 4 0xe8011e01).map (fun fl => fl.s.zeroR0) =
        some f'.spill ∧
      (Frame.enter Rsp.init).spill.OnlyDest f'.spill (Word.rt 0xe8011e01) :=
  generateIR_access_eq_switch
    (rfl : decode 0xe8011e01 0 = some ⟨.vecMem .sdv, 0xe8011e01, 0⟩) rfl
    (Frame.enter Rsp.init) rfl 4

end RspInsn

end RspBt
