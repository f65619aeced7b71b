import RspBt.Lib.Bytes
import RspBt.Rsp.State

namespace RspBt.Rsp

/-- Bytes `e, e+1, ...` of register `vt`, `n` of them, from `ea` on. -/
def loadBytes (s : Rsp) (vt : BitVec 5) (e : ℕ) (ea : Word) (n : ℕ) : Rsp :=
  (List.range n).foldl (fun s i => s.setVbyte vt (e + i) (s.rd8 (ea + BitVec.ofNat 32 i))) s

/-- The same bytes stored; a byte index past 15 wraps round the register. -/
def storeBytes (s : Rsp) (vt : BitVec 5) (e : ℕ) (ea : Word) (n : ℕ) : Rsp :=
  (List.range n).foldl (fun s i => s.wr8 (ea + BitVec.ofNat 32 i) (s.vbyte vt (e + i))) s

def vecEa (s : Rsp) (w : Word) (shift : ℕ) : Word := s.r w.rs + w.offs <<< shift

/-- `16 - ((ea & 15) - e)`, in unsigned arithmetic. -/
def rowStart (ea : Word) (e : ℕ) : ℕ := (16 - ((ea &&& 15) - BitVec.ofNat 32 e) : Word).toNat

def rowLeft (ea : Word) : ℕ := 16 - (ea &&& 15).toNat

/-- lsv, llv, ldv: the loop also stops at byte 15 of the register. -/
def loadFixed (s : Rsp) (w : Word) (shift : ℕ) : Rsp :=
  let e := w.byteE.toNat
  s.loadBytes w.rt e (s.vecEa w shift) (min (2 ^ shift) (16 - e))

/-- ltv: diagonal `vt & 0x18`, lane `sl` of register `sl`, inside a 16-byte window. -/
def ltv (s : Rsp) (w : Word) : Rsp :=
  let ea := s.vecEa w 4
  let group := w.rt &&& 0x18
  let win := ea &&& ~~~7
  let off := ea - win
  (List.finRange 8).foldl (fun s sl =>
    let m := win + ((off + BitVec.ofNat 32 (2 * sl.val)) &&& 15)
    let reg := group ||| BitVec.ofNat 5 sl.val
    s.setV reg (Function.update (s.v reg) sl (s.rd8 m ++ s.rd8 (m + 1)))) s

def loadPacked (s : Rsp) (w : Word) (shift : ℕ) : Rsp :=
  let e := w.byteE.toNat
  let ea := s.vecEa w 3
  (List.range 8).foldl (fun s i =>
    let b := s.rd8 (ea + BitVec.ofNat 32 i)
    let lane : Fin 8 := ⟨(e + i) % 8, by omega⟩
    s.setV w.rt (Function.update (s.v w.rt) lane (b.setWidth 16 <<< shift))) s

def storePacked (s : Rsp) (w : Word) (shift : ℕ) : Rsp :=
  let e := w.byteE.toNat
  let ea := s.vecEa w 3
  (List.range 8).foldl (fun s i =>
    let lane := s.v w.rt ⟨(e + i) % 8, by omega⟩
    s.wr8 (ea + BitVec.ofNat 32 i) ((lane >>> shift).setWidth 8)) s

def lwc2 (s : Rsp) (w : Word) : Option Rsp :=
  let e := w.byteE.toNat
  match w.rd with
  | 0 => some (s.setVbyte w.rt e (s.rd8 (s.vecEa w 0)))                    -- lbv
  | 1 => some (s.loadFixed w 1)                                            -- lsv
  | 2 => some (s.loadFixed w 2)                                            -- llv
  | 3 => some (s.loadFixed w 3)                                            -- ldv
  | 4 =>                                                                   -- lqv
    let ea := s.vecEa w 4
    some (s.loadBytes w.rt e ea (min (rowLeft ea) (16 - e)))
  | 11 => if e / 2 ≠ 0 then none else some (s.ltv w)                       -- ltv
  | 6 => some (s.loadPacked w 8)                                           -- lpv
  | 7 => some (s.loadPacked w 7)                                           -- luv
  | 5 =>                                                                   -- lrv
    let ea := s.vecEa w 4
    let start := rowStart ea e
    some (s.loadBytes w.rt start (ea &&& ~~~15) (16 - start))
  | _ => none

def swc2 (s : Rsp) (w : Word) : Option Rsp :=
  let e := w.byteE.toNat
  match w.rd with
  | 0 => some (s.wr8 (s.vecEa w 0) (s.vbyte w.rt e))                       -- sbv
  | 6 => some (s.storePacked w (if 8 ≤ e then 7 else 8))                   -- spv
  | 7 => some (s.storePacked w (if 8 ≤ e then 8 else 7))                   -- suv
  | 1 => some (s.storeBytes w.rt e (s.vecEa w 1) 2)                        -- ssv
  | 2 => some (s.storeBytes w.rt e (s.vecEa w 2) 4)                        -- slv
  | 3 => some (s.storeBytes w.rt e (s.vecEa w 3) 8)                        -- sdv
  | 5 =>                                                                   -- srv
    let ea := s.vecEa w 4
    let start := rowStart ea e
    some (s.storeBytes w.rt start (ea &&& ~~~15) (16 - start))
  | 4 =>                                                                   -- sqv
    let ea := s.vecEa w 4
    some (s.storeBytes w.rt e ea (rowLeft ea))
  | _ => none

theorem byteLane_eq_iff {i j : ℕ} : byteLane i = byteLane j ↔ i % 16 / 2 = j % 16 / 2 := by
  simp only [byteLane, Fin.mk.injEq]

theorem reg_ext {x y : Lib.Lanes 8 16} (h : ∀ i < 16, regByte x i = regByte y i) : x = y := by
  funext l
  have hlane : byteLane (2 * l.val) = l ∧ byteLane (2 * l.val + 1) = l := by
    constructor <;> (apply Fin.ext; simp only [byteLane]; omega)
  have h0 := h (2 * l.val) (by omega)
  have h1 := h (2 * l.val + 1) (by omega)
  simp only [regByte, hlane, show ¬ 2 * l.val % 2 = 1 by omega,
    show (2 * l.val + 1) % 2 = 1 by omega, if_true, if_false] at h0 h1
  rw [← hiByte_append_loByte (x l), ← hiByte_append_loByte (y l), h0, h1]

theorem vbyte_setVbyte (s : Rsp) (vt : BitVec 5) (i j : ℕ) (b : Byte) :
    (s.setVbyte vt i b).vbyte vt j = if j % 16 = i % 16 then b else s.vbyte vt j := by
  simp only [vbyte, setVbyte, setV, Function.update_self, regByte]
  by_cases hl : byteLane j = byteLane i
  · have hd := byteLane_eq_iff.mp hl
    rw [hl, Function.update_self]
    by_cases hi : i % 2 = 1 <;> by_cases hj : j % 2 = 1
    · simp [hi, hj, show j % 16 = i % 16 by omega]
    · simp [hi, hj, show j % 16 ≠ i % 16 by omega]
    · simp [hi, hj, show j % 16 ≠ i % 16 by omega]
    · simp [hi, hj, show j % 16 = i % 16 by omega]
  · have hne : j % 16 ≠ i % 16 := fun h => hl (byteLane_eq_iff.mpr (by rw [h]))
    rw [Function.update_of_ne hl, if_neg hne]

@[simp] theorem rd8_setVbyte (s : Rsp) (vt : BitVec 5) (i : ℕ) (b : Byte) (a : Word) :
    (s.setVbyte vt i b).rd8 a = s.rd8 a := rfl

theorem loadBytes_succ (s : Rsp) (vt : BitVec 5) (e : ℕ) (ea : Word) (n : ℕ) :
    s.loadBytes vt e ea (n + 1) =
      (s.loadBytes vt e ea n).setVbyte vt (e + n)
        ((s.loadBytes vt e ea n).rd8 (ea + BitVec.ofNat 32 n)) := by
  simp only [loadBytes, List.range_succ, List.foldl_append, List.foldl_cons, List.foldl_nil]

theorem loadBytes_setV (s : Rsp) (vt : BitVec 5) (e : ℕ) (ea : Word) (n : ℕ) :
    s.loadBytes vt e ea n = s.setV vt ((s.loadBytes vt e ea n).v vt) := by
  induction n with
  | zero => simp [loadBytes, setV]
  | succ n ih =>
    rw [loadBytes_succ, ih]
    simp [setVbyte, setV]

/-- Byte `j` of the register comes from memory exactly where the loop passed it. -/
theorem vbyte_loadBytes (s : Rsp) (vt : BitVec 5) (e : ℕ) (ea : Word) (n : ℕ) (hn : e + n ≤ 16)
    (j : ℕ) (hj : j < 16) :
    (s.loadBytes vt e ea n).vbyte vt j =
      if e ≤ j ∧ j < e + n then s.rd8 (ea + BitVec.ofNat 32 (j - e)) else s.vbyte vt j := by
  induction n with
  | zero => simp [loadBytes]
  | succ n ih =>
    have hmem : (s.loadBytes vt e ea n).rd8 (ea + BitVec.ofNat 32 n) =
        s.rd8 (ea + BitVec.ofNat 32 n) := by
      rw [loadBytes_setV]
      rfl
    rw [loadBytes_succ, vbyte_setVbyte, ih (by omega), hmem, Nat.mod_eq_of_lt hj,
      Nat.mod_eq_of_lt (by omega : e + n < 16)]
    by_cases hjn : j = e + n
    · rw [if_pos hjn, if_pos (by omega), show j - e = n by omega]
    · rw [if_neg hjn]
      by_cases hlt : e ≤ j ∧ j < e + n
      · rw [if_pos hlt, if_pos (by omega)]
      · rw [if_neg hlt, if_neg (by omega)]

theorem storeBytes_eq_writes (s : Rsp) (vt : BitVec 5) (e : ℕ) (ea : Word) (n : ℕ) :
    s.storeBytes vt e ea n =
      { s with
        mem := Lib.writes (fun i => dmemIdx (ea + BitVec.ofNat 32 i))
          (fun i => s.vbyte vt (e + i)) n s.mem } := by
  induction n with
  | zero => simp [storeBytes]
  | succ n ih =>
    rw [Lib.writes_succ]
    simp only [storeBytes, List.range_succ, List.foldl_append, List.foldl_cons, List.foldl_nil] at *
    rw [ih]
    rfl

theorem loadBytes_congr {s t : Rsp} {vt : BitVec 5} (hv : s.v vt = t.v vt) (hm : s.mem = t.mem)
    (e : ℕ) (ea : Word) (n : ℕ) : (s.loadBytes vt e ea n).v vt = (t.loadBytes vt e ea n).v vt := by
  induction n with
  | zero => exact hv
  | succ n ih =>
    rw [loadBytes_succ, loadBytes_succ, loadBytes_setV s, loadBytes_setV t, ih]
    simp only [setVbyte, setV, Function.update_self, rd8, hm]

theorem dmemIdx_add {a : Word} {i : ℕ} (h : dmemIdx a + i < 0x1000) :
    dmemIdx (a + BitVec.ofNat 32 i) = dmemIdx a + i := by
  rw [dmemIdx_eq] at *
  rw [dmemIdx_eq, BitVec.toNat_add, BitVec.toNat_ofNat]
  omega

theorem rowLeft_eq (ea : Word) : rowLeft ea = 16 - dmemIdx ea % 16 := by
  rw [rowLeft, dmemIdx_eq, BitVec.toNat_and]
  rw [show (15 : Word).toNat = 2 ^ 4 - 1 from rfl, Nat.and_two_pow_sub_one_eq_mod]
  omega

theorem rowStart_zero (ea : Word) : rowStart ea 0 = rowLeft ea := by
  have h : (ea &&& 15).toNat < 16 := by
    rw [BitVec.toNat_and]
    exact Nat.and_lt_two_pow _ (by decide : (15 : Word).toNat < 2 ^ 4)
  simp only [rowStart, rowLeft]
  bv_omega

theorem row_toNat (ea : Word) : (ea &&& 0xfffffff0).toNat = ea.toNat - ea.toNat % 16 := by
  have hmask : ∀ j, (0xfffffff0 : Word).getLsbD j = decide (4 ≤ j ∧ j < 32) :=
    Word.getLsbD_const (by decide) (by omega)
  have h : ea &&& (0xfffffff0 : Word) = (ea >>> 4) <<< 4 := by
    apply BitVec.eq_of_getLsbD_eq
    grind
  rw [h, BitVec.toNat_shiftLeft, BitVec.toNat_ushiftRight, Nat.shiftLeft_eq,
    Nat.shiftRight_eq_div_pow]
  omega

theorem dmemIdx_row (ea : Word) : dmemIdx (ea &&& ~~~15) = dmemIdx ea - dmemIdx ea % 16 := by
  rw [dmemIdx_eq, dmemIdx_eq, show ea &&& ~~~15 = ea &&& 0xfffffff0 from rfl, row_toNat]
  omega

theorem rd8_add (s : Rsp) (ea : Word) (i : ℕ) (h : dmemIdx ea + i < 0x1000) :
    s.rd8 (ea + BitVec.ofNat 32 i) = s.mem (dmemIdx ea + i) := by
  rw [rd8, dmemIdx_add h]

theorem rd16_of_fits (s : Rsp) {ea : Word} (h : dmemIdx ea + 2 ≤ 0x1000) :
    s.rd16 ea = s.mem (dmemIdx ea) ++ s.mem (dmemIdx ea + 1) := by
  have h1 : s.rd8 (ea + 1) = s.mem (dmemIdx ea + 1) := s.rd8_add ea 1 (by omega)
  rw [rd16, h1, rd8]

theorem rd32_of_fits (s : Rsp) {ea : Word} (h : dmemIdx ea + 4 ≤ 0x1000) :
    s.rd32 ea = s.mem (dmemIdx ea) ++ s.mem (dmemIdx ea + 1) ++ s.mem (dmemIdx ea + 2) ++
      s.mem (dmemIdx ea + 3) := by
  have h1 : s.rd8 (ea + 1) = s.mem (dmemIdx ea + 1) := s.rd8_add ea 1 (by omega)
  have h2 : s.rd8 (ea + 2) = s.mem (dmemIdx ea + 2) := s.rd8_add ea 2 (by omega)
  have h3 : s.rd8 (ea + 3) = s.mem (dmemIdx ea + 3) := s.rd8_add ea 3 (by omega)
  rw [rd32, h1, h2, h3, rd8]

theorem wr8_add (s : Rsp) (ea : Word) (i : ℕ) (h : dmemIdx ea + i < 0x1000) (b : Byte) :
    s.wr8 (ea + BitVec.ofNat 32 i) b = s.setMem (dmemIdx ea + i) b := by
  rw [wr8, dmemIdx_add h]

theorem wr16_of_fits (s : Rsp) {ea : Word} (h : dmemIdx ea + 2 ≤ 0x1000) (x : BitVec 16) :
    s.wr16 ea x = (s.setMem (dmemIdx ea) (hiByte x)).setMem (dmemIdx ea + 1) (loByte x) := by
  have h1 (s : Rsp) (b : Byte) : s.wr8 (ea + 1) b = s.setMem (dmemIdx ea + 1) b :=
    s.wr8_add ea 1 (by omega) b
  rw [wr16, h1, wr8]

theorem wr32_of_fits (s : Rsp) {ea : Word} (h : dmemIdx ea + 4 ≤ 0x1000) (x : Word) :
    s.wr32 ea x = (((s.setMem (dmemIdx ea) (x.extractLsb' 24 8)).setMem (dmemIdx ea + 1)
      (x.extractLsb' 16 8)).setMem (dmemIdx ea + 2) (x.extractLsb' 8 8)).setMem (dmemIdx ea + 3)
      (x.extractLsb' 0 8) := by
  have h1 (s : Rsp) (b : Byte) : s.wr8 (ea + 1) b = s.setMem (dmemIdx ea + 1) b :=
    s.wr8_add ea 1 (by omega) b
  have h2 (s : Rsp) (b : Byte) : s.wr8 (ea + 2) b = s.setMem (dmemIdx ea + 2) b :=
    s.wr8_add ea 2 (by omega) b
  have h3 (s : Rsp) (b : Byte) : s.wr8 (ea + 3) b = s.setMem (dmemIdx ea + 3) b :=
    s.wr8_add ea 3 (by omega) b
  rw [wr32, h1, h2, h3, wr8]

end RspBt.Rsp
