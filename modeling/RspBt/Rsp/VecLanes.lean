import Mathlib.Logic.Equiv.Defs
import RspBt.Rsp.VecBytes

namespace RspBt.Rsp

theorem packedLane_lt (w : Word) (i : ℕ) : (w.byteE.toNat + i) % 8 < 8 := Nat.mod_lt _ (by decide)

def packedLane (w : Word) (i : ℕ) : Fin 8 := ⟨(w.byteE.toNat + i) % 8, packedLane_lt w i⟩

theorem packedLane_inj {w : Word} {i j : ℕ} (hi : i < 8) (hj : j < 8)
    (h : packedLane w i = packedLane w j) : i = j := by
  have hval := congrArg Fin.val h
  simp only [packedLane] at hval
  omega

def PackedAt (s : Rsp) (w : Word) (shift : ℕ) : Prop :=
  ∀ i < 8, s.v w.rt (packedLane w i) =
    (s.rd8 (s.vecEa w 3 + BitVec.ofNat 32 i)).setWidth 16 <<< shift

theorem unpack_pack (b : Byte) {shift : ℕ} (h : shift ≤ 8) :
    ((b.setWidth 16 <<< shift) >>> shift).setWidth 8 = b := by
  apply BitVec.eq_of_getLsbD_eq
  intro j hj
  simp only [BitVec.getLsbD_setWidth, BitVec.getLsbD_ushiftRight, BitVec.getLsbD_shiftLeft, hj]
  simp [show shift + j < 16 by omega, show j < 16 by omega]

def loadLane (w ea : Word) (shift : ℕ) (s : Rsp) (i : ℕ) : Rsp :=
  s.setV w.rt (Function.update (s.v w.rt) (packedLane w i)
    ((s.rd8 (ea + BitVec.ofNat 32 i)).setWidth 16 <<< shift))

def storeLane (w ea : Word) (shift : ℕ) (s : Rsp) (i : ℕ) : Rsp :=
  s.wr8 (ea + BitVec.ofNat 32 i) ((s.v w.rt (packedLane w i) >>> shift).setWidth 8)

theorem loadPacked_eq (s : Rsp) (w : Word) (shift : ℕ) :
    s.loadPacked w shift = (List.range 8).foldl (loadLane w (s.vecEa w 3) shift) s := rfl

theorem storePacked_eq (s : Rsp) (w : Word) (shift : ℕ) :
    s.storePacked w shift = (List.range 8).foldl (storeLane w (s.vecEa w 3) shift) s := rfl

theorem PackedAt.load {s : Rsp} {w : Word} {shift : ℕ} (h : s.PackedAt w shift) :
    s.loadPacked w shift = s := by
  rw [loadPacked_eq]
  apply Lib.foldl_range_fixed
  intro i hi
  rw [loadLane, ← h i hi, Function.update_eq_self, setV, Function.update_eq_self]

theorem PackedAt.store {s : Rsp} {w : Word} {shift : ℕ} (h : s.PackedAt w shift)
    (hshift : shift ≤ 8) : s.storePacked w shift = s := by
  rw [storePacked_eq]
  apply Lib.foldl_range_fixed
  intro i hi
  rw [storeLane, h i hi, unpack_pack _ hshift, wr8, rd8, setMem, Function.update_eq_self]

/-- A load changes one register, and the lanes it passed hold their bytes. -/
theorem foldl_loadLane (s : Rsp) (w ea : Word) (shift : ℕ) {n : ℕ} (hn : n ≤ 8) :
    ∃ x, (List.range n).foldl (loadLane w ea shift) s = s.setV w.rt x ∧
      ∀ i < n, x (packedLane w i) = (s.rd8 (ea + BitVec.ofNat 32 i)).setWidth 16 <<< shift := by
  induction n with
  | zero =>
    refine ⟨s.v w.rt, ?_, fun i hi => absurd hi (Nat.not_lt_zero i)⟩
    rw [setV, Function.update_eq_self]
    rfl
  | succ n ih =>
    obtain ⟨x, heq, hx⟩ := ih (by omega)
    refine ⟨Function.update x (packedLane w n)
      ((s.rd8 (ea + BitVec.ofNat 32 n)).setWidth 16 <<< shift), ?_, fun i hi => ?_⟩
    · rw [List.range_succ, List.foldl_append, heq]
      simp only [List.foldl_cons, List.foldl_nil, loadLane, setV, Function.update_self,
        Function.update_idem]
      rfl
    · by_cases hin : i = n
      · rw [hin, Function.update_self]
      · have hne : packedLane w i ≠ packedLane w n :=
          fun h => hin (packedLane_inj (by omega) (by omega) h)
        rw [Function.update_of_ne hne]
        exact hx i (by omega)

theorem loadPacked_packedAt (s : Rsp) (w : Word) (shift : ℕ) :
    (s.loadPacked w shift).PackedAt w shift := by
  obtain ⟨x, heq, hx⟩ := s.foldl_loadLane w (s.vecEa w 3) shift le_rfl
  rw [loadPacked_eq, heq]
  intro i hi
  exact (congrFun (Function.update_self ..) _).trans (hx i hi)

theorem loadPacked_mem (s : Rsp) (w : Word) (shift : ℕ) : (s.loadPacked w shift).mem = s.mem := by
  obtain ⟨x, heq, -⟩ := s.foldl_loadLane w (s.vecEa w 3) shift le_rfl
  rw [loadPacked_eq, heq]
  rfl

theorem storePacked_eq_writes (s : Rsp) (w : Word) (shift : ℕ) :
    s.storePacked w shift =
      { s with
        mem := Lib.writes (fun i => dmemIdx (s.vecEa w 3 + BitVec.ofNat 32 i))
          (fun i => (s.v w.rt (packedLane w i) >>> shift).setWidth 8) 8 s.mem } := by
  rw [storePacked_eq]
  generalize s.vecEa w 3 = ea
  have hn : ∀ n, (List.range n).foldl (storeLane w ea shift) s =
      { s with
        mem := Lib.writes (fun i => dmemIdx (ea + BitVec.ofNat 32 i))
          (fun i => (s.v w.rt (packedLane w i) >>> shift).setWidth 8) n s.mem } := by
    intro n
    induction n with
    | zero => rfl
    | succ n ih =>
      rw [List.range_succ, List.foldl_append, ih, Lib.writes_succ]
      rfl
  exact hn 8

/-- The lane is a byte at the place the load puts it. -/
def IsPacked (shift : ℕ) (x : BitVec 16) : Prop := ∃ b : Byte, x = b.setWidth 16 <<< shift

/-- A register of packed bytes is what the load makes of what the store leaves. -/
theorem storePacked_packedAt {s : Rsp} {w : Word} {shift : ℕ} (hshift : shift ≤ 8)
    (h : ∀ l, IsPacked shift (s.v w.rt l)) : (s.storePacked w shift).PackedAt w shift := by
  have hmem : ∀ i < 8, (s.storePacked w shift).rd8 (s.vecEa w 3 + BitVec.ofNat 32 i) =
      (s.v w.rt (packedLane w i) >>> shift).setWidth 8 := by
    intro i hi
    rw [rd8, storePacked_eq_writes]
    exact Lib.writes_in (fun i hi j hj => dmemIdx_ofNat_inj (by omega) (by omega)) hi
  have hrest : (s.storePacked w shift).v = s.v ∧ (s.storePacked w shift).r = s.r := by
    rw [storePacked_eq_writes]
    exact ⟨rfl, rfl⟩
  intro i hi
  obtain ⟨b, hb⟩ := h (packedLane w i)
  rw [vecEa_congr hrest.2, hmem i hi, hrest.1, hb, unpack_pack b hshift]

/-- lpv goes with spv and luv with suv, the other way round for an element of 8 or more. -/
structure PackedPair (l st : Word) : Prop where
  load : l.op = 0x32
  store : st.op = 0x3a
  same : SameOperands l st
  forms : if l.byteE.toNat < 8 then l.rd = 6 ∧ st.rd = 6 ∨ l.rd = 7 ∧ st.rd = 7
    else l.rd = 6 ∧ st.rd = 7 ∨ l.rd = 7 ∧ st.rd = 6

def packedShift (l : Word) : ℕ := if l.rd = 6 then 8 else 7

theorem packedShift_le (l : Word) : packedShift l ≤ 8 := by
  unfold packedShift
  split_ifs <;> decide

theorem PackedPair.lwc2 {l st : Word} (h : PackedPair l st) (s : Rsp) :
    s.lwc2 l = some (s.loadPacked l (packedShift l)) := by
  have hforms := h.forms
  have hrd : l.rd = 6 ∨ l.rd = 7 := by
    split_ifs at hforms <;> tauto
  rcases hrd with hrd | hrd <;> simp only [Rsp.lwc2, packedShift, hrd] <;> rfl

/-- The two swaps cancel. -/
theorem PackedPair.swc2 {l st : Word} (h : PackedPair l st) (s : Rsp) :
    s.swc2 st = some (s.storePacked l (packedShift l)) := by
  -- the load knows nothing of the element, so the store has to undo its own swap
  have hforms := h.forms
  have hstore : ∀ shift, s.storePacked st shift = s.storePacked l shift := by
    intro shift
    simp only [storePacked, vecEa, h.same.rs, h.same.rt, h.same.e, h.same.offs]
  rw [← hstore]
  split_ifs at hforms with he
  · have he' : ¬ 8 ≤ st.byteE.toNat := by rw [h.same.e]; omega
    rcases hforms with ⟨hl, hst⟩ | ⟨hl, hst⟩
    · simp only [Rsp.swc2, packedShift, hl, hst, if_neg he']
      rfl
    · simp only [Rsp.swc2, packedShift, hl, hst, if_neg he']
      rfl
  · have he' : 8 ≤ st.byteE.toNat := by rw [h.same.e]; omega
    rcases hforms with ⟨hl, hst⟩ | ⟨hl, hst⟩
    · simp only [Rsp.swc2, packedShift, hl, hst, if_pos he']
      rfl
    · simp only [Rsp.swc2, packedShift, hl, hst, if_pos he']
      rfl

/-- Load and store keep memory; store and load keep a register of packed bytes. -/
theorem packedPair_roundTrip (s : Rsp) {l st : Word} (h : PackedPair l st) :
    (∃ s', (s.straight l).bind (fun t => t.straight st) = some s' ∧ s'.mem = s.mem) ∧
      ((∀ lane, IsPacked (packedShift l) (s.v l.rt lane)) →
        ∃ s', (s.straight st).bind (fun t => t.straight l) = some s' ∧ s'.v = s.v) := by
  have hle := packedShift_le l
  constructor
  · refine ⟨s.loadPacked l (packedShift l), ?_, s.loadPacked_mem l _⟩
    have hstore := (s.loadPacked_packedAt l (packedShift l)).store hle
    rw [straight_lwc2 s h.load, h.lwc2, Option.bind_some, straight_swc2 _ h.store, h.swc2, hstore]
  · intro hlanes
    refine ⟨s.storePacked l (packedShift l), ?_, by rw [storePacked_eq_writes]⟩
    have hload := (storePacked_packedAt hle hlanes).load
    rw [straight_swc2 s h.store, h.swc2, Option.bind_some, straight_lwc2 _ h.load, h.lwc2, hload]

/-- luv and spv at element 9, on a register of zeros. -/
theorem packedPair_roundTrip_nine :
    (∃ s', (init.straight 0xc8023c80).bind (fun t => t.straight 0xe8023480) = some s' ∧
      s'.mem = init.mem) ∧
      ∃ s', (init.straight 0xe8023480).bind (fun t => t.straight 0xc8023c80) = some s' ∧
        s'.v = init.v := by
  have h := @packedPair_roundTrip init 0xc8023c80 0xe8023480
    ⟨by decide, by decide, ⟨by decide, by decide, by decide, by decide⟩, by decide⟩
  exact ⟨h.1, h.2 fun _ => ⟨0, rfl⟩⟩

def ltvWindow (ea : Word) : ℕ := ea.toNat / 8 * 8

/-- Byte `k` of the window, the end of DMEM wrapping. -/
def windowIdx (ea : Word) (k : ℕ) : ℕ := (ltvWindow ea + k) % 0x1000

def ltvOffset (ea : Word) (sl : Fin 8) : ℕ := (ea.toNat % 8 + 2 * sl.val) % 16

theorem ltvWindow_toNat (ea : Word) : (ea &&& ~~~7).toNat = ltvWindow ea := by
  have hmask : ∀ j, (0xfffffff8 : Word).getLsbD j = decide (3 ≤ j ∧ j < 32) :=
    Word.getLsbD_const (by decide) (by omega)
  have h : ea &&& (0xfffffff8 : Word) = (ea >>> 3) <<< 3 := by
    apply BitVec.eq_of_getLsbD_eq
    grind
  rw [show ea &&& ~~~7 = ea &&& 0xfffffff8 from rfl, h, BitVec.toNat_shiftLeft,
    BitVec.toNat_ushiftRight, Nat.shiftLeft_eq, Nat.shiftRight_eq_div_pow, ltvWindow]
  omega

theorem ltv_address (ea : Word) (sl : Fin 8) :
    let m := (ea &&& ~~~7) + ((ea - (ea &&& ~~~7) + BitVec.ofNat 32 (2 * sl.val)) &&& 15)
    dmemIdx m = windowIdx ea (ltvOffset ea sl) ∧
      dmemIdx (m + 1) = windowIdx ea (ltvOffset ea sl + 1) := by
  intro m
  have hlow : ((ea - (ea &&& ~~~7) + BitVec.ofNat 32 (2 * sl.val)) &&& 15).toNat =
      ltvOffset ea sl := by
    rw [BitVec.toNat_and, show (15 : Word).toNat = 2 ^ 4 - 1 from rfl,
      Nat.and_two_pow_sub_one_eq_mod, BitVec.toNat_add, BitVec.toNat_sub, BitVec.toNat_ofNat,
      ltvWindow_toNat, ltvWindow, ltvOffset]
    omega
  have hm : m.toNat = (ltvWindow ea + ltvOffset ea sl) % 2 ^ 32 := by
    rw [BitVec.toNat_add, hlow, ltvWindow_toNat]
  constructor
  · rw [dmemIdx_eq, hm, windowIdx]
    omega
  · rw [dmemIdx_eq, BitVec.toNat_add, hm, windowIdx, show (1 : Word).toNat = 1 from rfl]
    omega

def ltvReg (w : Word) (sl : Fin 8) : BitVec 5 := (w.rt &&& 0x18) + BitVec.ofNat 5 sl.val

theorem ltvReg_eq (w : Word) (sl : Fin 8) :
    (w.rt &&& 0x18) ||| BitVec.ofNat 5 sl.val = ltvReg w sl := by
  have h : ∀ (vt : BitVec 5) (sl : Fin 8),
      (vt &&& 0x18) ||| BitVec.ofNat 5 sl.val = (vt &&& 0x18) + BitVec.ofNat 5 sl.val := by decide
  exact h w.rt sl

def ltvLane (w ea : Word) (s : Rsp) (sl : Fin 8) : Rsp :=
  let m := (ea &&& ~~~7) + ((ea - (ea &&& ~~~7) + BitVec.ofNat 32 (2 * sl.val)) &&& 15)
  let reg := (w.rt &&& 0x18) ||| BitVec.ofNat 5 sl.val
  s.setV reg (Function.update (s.v reg) sl (s.rd8 m ++ s.rd8 (m + 1)))

theorem ltv_eq (s : Rsp) (w : Word) :
    s.ltv w = (List.finRange 8).foldl (ltvLane w (s.vecEa w 4)) s := rfl

def ltvShort (m : ℕ → Byte) (ea : Word) (sl : Fin 8) : BitVec 16 :=
  m (windowIdx ea (ltvOffset ea sl)) ++ m (windowIdx ea (ltvOffset ea sl + 1))

theorem ltvLane_eq (w ea : Word) (s : Rsp) (sl : Fin 8) :
    ltvLane w ea s sl =
      s.setV (ltvReg w sl) (Function.update (s.v (ltvReg w sl)) sl (ltvShort s.mem ea sl)) := by
  have h := ltv_address ea sl
  rw [ltvLane, ltvReg_eq, ltvShort, ← h.1, ← h.2]
  rfl

theorem foldl_ltvLane (s : Rsp) (w ea : Word) (l : List (Fin 8)) :
    ∃ x, l.foldl (ltvLane w ea) s = { s with v := x } ∧
      ∀ r lane, x r lane =
        if lane ∈ l ∧ r = ltvReg w lane then ltvShort s.mem ea lane else s.v r lane := by
  induction l using List.reverseRecOn with
  | nil => exact ⟨s.v, rfl, fun r lane => (if_neg (by simp)).symm⟩
  | append_singleton l sl ih =>
    obtain ⟨x, heq, hx⟩ := ih
    refine ⟨Function.update x (ltvReg w sl)
      (Function.update (x (ltvReg w sl)) sl (ltvShort s.mem ea sl)), ?_, fun r lane => ?_⟩
    · rw [List.foldl_append, heq, List.foldl_cons, List.foldl_nil, ltvLane_eq]
      rfl
    · simp only [Function.update_apply, List.mem_append, List.mem_singleton]
      grind

theorem ltv_v (s : Rsp) (w : Word) :
    ∃ x, s.ltv w = { s with v := x } ∧ ∀ r lane, x r lane =
      if r = ltvReg w lane then ltvShort s.mem (s.vecEa w 4) lane else s.v r lane := by
  obtain ⟨x, heq, hx⟩ := s.foldl_ltvLane w (s.vecEa w 4) (List.finRange 8)
  refine ⟨x, (s.ltv_eq w).trans heq, fun r lane => ?_⟩
  rw [hx]
  simp only [List.mem_finRange, true_and]

theorem hiIdx_lt (sl : Fin 8) : 2 * sl.val < 16 := by omega
theorem loIdx_lt (sl : Fin 8) : 2 * sl.val + 1 < 16 := by omega

def hiIdx (sl : Fin 8) : Fin 16 := ⟨2 * sl.val, hiIdx_lt sl⟩
def loIdx (sl : Fin 8) : Fin 16 := ⟨2 * sl.val + 1, loIdx_lt sl⟩

/-- The sixteen bytes loaded are those of the window, each once, and lane `sl` is what changes
in register `sl` of the group. -/
def LtvInWindow (s : Rsp) (w : Word) : Prop :=
  ∃ σ : Equiv.Perm (Fin 16), ∀ m : ℕ → Byte, ∃ x,
    ({ s with mem := m } : Rsp).lwc2 w = some { s with mem := m, v := x } ∧
      (∀ sl, x (ltvReg w sl) sl = m (windowIdx (s.vecEa w 4) (σ (hiIdx sl))) ++
        m (windowIdx (s.vecEa w 4) (σ (loIdx sl)))) ∧
      (∀ sl lane, lane ≠ sl → x (ltvReg w sl) lane = s.v (ltvReg w sl) lane) ∧
      ∀ r, (∀ sl, r ≠ ltvReg w sl) → x r = s.v r

theorem ltvReg_inj {w : Word} {a b : Fin 8} (h : ltvReg w a = ltvReg w b) : a = b := by
  have hnat := congrArg BitVec.toNat (add_left_cancel h)
  rw [BitVec.toNat_ofNat, BitVec.toNat_ofNat] at hnat
  omega

def rotateWindow (off : ℕ) : Equiv.Perm (Fin 16) := Equiv.addRight (Fin.ofNat 16 off)

theorem rotateWindow_val (off : ℕ) (j : Fin 16) : (rotateWindow off j).val = (j.val + off) % 16 := by
  change (j.val + off % 16) % 16 = _
  omega

theorem lwc2_ltv {s : Rsp} {w : Word} (h : w.rd = 11) (he : w.byteE.toNat / 2 = 0) :
    s.lwc2 w = some (s.ltv w) := by
  simp only [lwc2, h]
  exact if_neg fun hne => hne he

/-- An even address goes round the window in whole shorts. -/
theorem ltvInWindow_of_even {s : Rsp} {w : Word} (h : w.rd = 11) (he : w.byteE.toNat / 2 = 0)
    (heven : (s.vecEa w 4).toNat % 2 = 0) : s.LtvInWindow w := by
  refine ⟨rotateWindow ((s.vecEa w 4).toNat % 8), fun m => ?_⟩
  obtain ⟨x, heq, hx⟩ := ({ s with mem := m } : Rsp).ltv_v w
  have hhi : ∀ sl, ltvOffset (s.vecEa w 4) sl =
      (rotateWindow ((s.vecEa w 4).toNat % 8) (hiIdx sl)).val := by
    intro sl
    rw [rotateWindow_val, ltvOffset, hiIdx, Nat.add_comm]
  have hlo : ∀ sl, ltvOffset (s.vecEa w 4) sl + 1 =
      (rotateWindow ((s.vecEa w 4).toNat % 8) (loIdx sl)).val := by
    intro sl
    simp only [rotateWindow_val, ltvOffset, loIdx]
    omega
  refine ⟨x, by rw [lwc2_ltv h he, heq], fun sl => ?_, fun sl lane hne => ?_, fun r hr => ?_⟩
  · rw [hx, if_pos rfl, ← hhi, ← hlo]
    rfl
  · rw [hx, if_neg fun hreg => hne (ltvReg_inj hreg).symm]
  · funext lane
    rw [hx, if_neg (hr lane)]

/-- From an odd address one lane is the last byte of the window and the one after it. -/
theorem not_ltvInWindow_of_odd {s : Rsp} {w : Word} (h : w.rd = 11) (he : w.byteE.toNat / 2 = 0)
    (hodd : (s.vecEa w 4).toNat % 2 = 1) : ¬ s.LtvInWindow w := by
  rintro ⟨σ, hσ⟩
  let sl : Fin 8 := ⟨(15 - (s.vecEa w 4).toNat % 8) / 2, by omega⟩
  have hlast : ltvOffset (s.vecEa w 4) sl = 15 := by
    simp only [ltvOffset, sl]
    omega
  -- a memory that is zero but for the byte after the window
  let m : ℕ → Byte := fun a => if a = windowIdx (s.vecEa w 4) 16 then 1 else 0
  obtain ⟨x, heq, hdiag, -, -⟩ := hσ m
  obtain ⟨y, heq', hy⟩ := ({ s with mem := m } : Rsp).ltv_v w
  -- what the loop leaves is the diagonal, so its byte is the one after the window
  have hxy : x = y := by
    rw [lwc2_ltv h he, heq'] at heq
    exact (congrArg v (Option.some.inj heq)).symm
  have hbyte := congrArg loByte ((hdiag sl).symm.trans (by rw [hxy, hy, if_pos rfl]))
  have hshort : loByte (ltvShort m (s.vecEa w 4) sl) = 1 := by
    rw [ltvShort, loByte_append, hlast]
    exact if_pos rfl
  rw [loByte_append] at hbyte
  have hone : m (windowIdx (s.vecEa w 4) (σ (loIdx sl))) = 1 := hbyte.trans hshort
  have hidx : windowIdx (s.vecEa w 4) (σ (loIdx sl)) = windowIdx (s.vecEa w 4) 16 := by
    by_contra hne
    rw [show m (windowIdx (s.vecEa w 4) (σ (loIdx sl))) = 0 from if_neg hne] at hone
    exact absurd hone (by decide)
  have hlt := (σ (loIdx sl)).isLt
  simp only [windowIdx] at hidx
  omega

/-- ltv keeps to its window exactly from an even address: the first byte of a short is wrapped
in it and the second is not. -/
theorem ltvInWindow_iff {s : Rsp} {w : Word} (h : w.rd = 11) (he : w.byteE.toNat / 2 = 0) :
    s.LtvInWindow w ↔ (s.vecEa w 4).toNat % 2 = 0 := by
  constructor
  · intro hin
    by_contra hodd
    exact not_ltvInWindow_of_odd h he (by omega) hin
  · exact ltvInWindow_of_even h he

/-- From the last short of DMEM. -/
theorem ltvInWindow_iff_wrap :
    (init.setR 1 0xffe).LtvInWindow 0xc8285800 ↔
      ((init.setR 1 0xffe).vecEa 0xc8285800 4).toNat % 2 = 0 :=
  ltvInWindow_iff (by decide) (by decide)

/-- From address 1 lane 7 is bytes 15 and 16 of the window. -/
theorem not_ltvInWindow : ¬ (init.setR 1 1).LtvInWindow 0xc8285800 :=
  not_ltvInWindow_of_odd (by decide) (by decide) (by decide)

end RspBt.Rsp
