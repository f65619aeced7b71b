import Mathlib.Data.Set.Basic
import RspBt.Rsp.Run

namespace RspBt.Rsp

def dmemRange (a n : ℕ) : Set ℕ := {x | ∃ i < n, x = (a + i) % 0x1000}

theorem dmemIdx_ofNat (ea : Word) (i : ℕ) :
    dmemIdx (ea + BitVec.ofNat 32 i) = (ea.toNat + i) % 0x1000 := by
  rw [dmemIdx_eq, BitVec.toNat_add, BitVec.toNat_ofNat]
  omega

theorem dmemIdx_ofNat_inj {ea : Word} {i j : ℕ} (hi : i < 16) (hj : j < 16)
    (h : dmemIdx (ea + BitVec.ofNat 32 i) = dmemIdx (ea + BitVec.ofNat 32 j)) : i = j := by
  rw [dmemIdx_ofNat, dmemIdx_ofNat] at h
  omega

theorem dmemRange_inj {a n k : ℕ} (hn : n ≤ 16) (hk : k ≤ 16)
    (h : dmemRange a n = dmemRange a k) : n = k := by
  have hle : ∀ {n k : ℕ}, n ≤ 16 → k ≤ 16 → dmemRange a n = dmemRange a k → n ≤ k := by
    intro n k hn hk h
    by_contra hlt
    -- the last byte of the longer range is not in the other
    have hlast : (a + (n - 1)) % 0x1000 ∈ dmemRange a n := ⟨n - 1, by omega, rfl⟩
    rw [h] at hlast
    obtain ⟨i, hi, heq⟩ := hlast
    omega
  exact le_antisymm (hle hn hk h) (hle hk hn h.symm)

theorem loadBytes_add (s : Rsp) (vt : BitVec 5) (e : ℕ) (ea : Word) (n k : ℕ) :
    s.loadBytes vt e ea (n + k) =
      (s.loadBytes vt e ea n).loadBytes vt (e + n) (ea + BitVec.ofNat 32 n) k := by
  induction k with
  | zero => rfl
  | succ k ih =>
    rw [← Nat.add_assoc, loadBytes_succ, ih, loadBytes_succ, Nat.add_assoc e, BitVec.add_assoc ea,
      ← BitVec.ofNat_add]

theorem storeBytes_succ (s : Rsp) (vt : BitVec 5) (e : ℕ) (ea : Word) (n : ℕ) :
    s.storeBytes vt e ea (n + 1) =
      (s.storeBytes vt e ea n).wr8 (ea + BitVec.ofNat 32 n)
        ((s.storeBytes vt e ea n).vbyte vt (e + n)) := by
  simp only [storeBytes, List.range_succ, List.foldl_append, List.foldl_cons, List.foldl_nil]

theorem storeBytes_add (s : Rsp) (vt : BitVec 5) (e : ℕ) (ea : Word) (n k : ℕ) :
    s.storeBytes vt e ea (n + k) =
      (s.storeBytes vt e ea n).storeBytes vt (e + n) (ea + BitVec.ofNat 32 n) k := by
  induction k with
  | zero => rfl
  | succ k ih =>
    rw [← Nat.add_assoc, storeBytes_succ, ih, storeBytes_succ, Nat.add_assoc e,
      BitVec.add_assoc ea, ← BitVec.ofNat_add]

theorem storeBytes_mem (s : Rsp) (vt : BitVec 5) (e : ℕ) (ea : Word) (n : ℕ) :
    s.storeBytes vt e ea n = { s with mem := (s.storeBytes vt e ea n).mem } := by
  rw [storeBytes_eq_writes]

theorem storeBytes_in (s : Rsp) (vt : BitVec 5) (e : ℕ) (ea : Word) {n i : ℕ} (hn : n ≤ 16)
    (hi : i < n) :
    (s.storeBytes vt e ea n).mem (dmemIdx (ea + BitVec.ofNat 32 i)) = s.vbyte vt (e + i) := by
  rw [storeBytes_eq_writes]
  exact Lib.writes_in (fun i hi j hj => dmemIdx_ofNat_inj (by omega) (by omega)) hi

theorem storeBytes_out (s : Rsp) (vt : BitVec 5) (e : ℕ) {ea : Word} {n a : ℕ}
    (h : a ∉ dmemRange ea.toNat n) : (s.storeBytes vt e ea n).mem a = s.mem a := by
  rw [storeBytes_eq_writes]
  apply Lib.writes_out
  intro i hi heq
  rw [dmemIdx_ofNat] at heq
  exact h ⟨i, hi, heq.symm⟩

theorem setVbyte_vbyte (s : Rsp) (vt : BitVec 5) (i : ℕ) : s.setVbyte vt i (s.vbyte vt i) = s := by
  have hlane : (if i % 2 = 1 then hiByte (s.v vt (byteLane i)) ++ s.vbyte vt i
      else s.vbyte vt i ++ loByte (s.v vt (byteLane i))) = s.v vt (byteLane i) := by
    rw [vbyte, regByte]
    split_ifs <;> exact hiByte_append_loByte _
  simp only [setVbyte, hlane, Function.update_eq_self, setV]

/-- The load loop finds what the store loop left, as far as it goes. -/
theorem loadBytes_storeBytes (s : Rsp) (vt : BitVec 5) (e : ℕ) (ea : Word) {n k : ℕ} (hn : n ≤ 16)
    (hk : k ≤ n) :
    (s.storeBytes vt e ea n).loadBytes vt e ea k = s.storeBytes vt e ea n := by
  -- each turn loads the byte the register has there already, whether or not the loop goes round it
  apply Lib.foldl_range_fixed
  intro i hi
  have hbyte : (s.storeBytes vt e ea n).rd8 (ea + BitVec.ofNat 32 i) =
      (s.storeBytes vt e ea n).vbyte vt (e + i) := by
    rw [rd8, s.storeBytes_in vt e ea hn (by omega), storeBytes_mem]
    rfl
  rw [hbyte, setVbyte_vbyte]

def rowFrom (ea : Word) : Set ℕ := dmemRange ea.toNat (16 - ea.toNat % 16)

def rowBelow (ea : Word) : Set ℕ := dmemRange (ea.toNat / 16 * 16) (ea.toNat % 16)

theorem rowLeft_toNat (ea : Word) : rowLeft ea = 16 - ea.toNat % 16 := by
  rw [rowLeft_eq, dmemIdx_eq]
  omega

theorem rowBegin_toNat (ea : Word) : (ea &&& ~~~15).toNat = ea.toNat / 16 * 16 := by
  rw [show ea &&& ~~~15 = ea &&& 0xfffffff0 from rfl, row_toNat]
  omega

/-- The bytes lrv and srv count: none when the difference is negative. -/
theorem sub_rowStart (ea : Word) {e : ℕ} (he : e < 16) :
    16 - rowStart ea e = ea.toNat % 16 - e := by
  have hlow : (ea &&& 15).toNat = ea.toNat % 16 := by
    rw [BitVec.toNat_and]
    exact Nat.and_two_pow_sub_one_eq_mod ea.toNat 4
  have hrow : (ea &&& 15).toNat < 16 := by omega
  rw [← hlow, rowStart]
  bv_omega

theorem vecEa_congr {s t : Rsp} (h : t.r = s.r) (w : Word) (shift : ℕ) :
    t.vecEa w shift = s.vecEa w shift := by
  rw [vecEa, vecEa, h]

theorem loadBytes_r (s : Rsp) (vt : BitVec 5) (e : ℕ) (ea : Word) (n : ℕ) :
    (s.loadBytes vt e ea n).r = s.r := by
  rw [loadBytes_setV]
  rfl

theorem storeBytes_r (s : Rsp) (vt : BitVec 5) (e : ℕ) (ea : Word) (n : ℕ) :
    (s.storeBytes vt e ea n).r = s.r := by
  rw [storeBytes_mem]

/-- What a byte-form store covers: sqv the row from the address on, srv the row below it. -/
def storeCover (s : Rsp) (w : Word) : Set ℕ :=
  match w.rd with
  | 0 => dmemRange (s.vecEa w 0).toNat 1
  | 1 => dmemRange (s.vecEa w 1).toNat 2
  | 2 => dmemRange (s.vecEa w 2).toNat 4
  | 3 => dmemRange (s.vecEa w 3).toNat 8
  | 4 => rowFrom (s.vecEa w 4)
  | 5 => rowBelow (s.vecEa w 4)
  | _ => ∅

/-- A store and the load of the same form run over the same bytes; the load may stop sooner. -/
structure ByteForm (s : Rsp) (w : Word) (e : ℕ) (ea : Word) (n k : ℕ) : Prop where
  store : s.swc2 w = some (s.storeBytes w.rt e ea n)
  load : ∀ t : Rsp, t.r = s.r → t.lwc2 w = some (t.loadBytes w.rt e ea k)
  le : k ≤ n
  row : n ≤ 16
  cover : dmemRange ea.toNat n ⊆ s.storeCover w

theorem dmemRange_mono {a n k : ℕ} (h : n ≤ k) : dmemRange a n ⊆ dmemRange a k := by
  rintro _ ⟨i, hi, rfl⟩
  exact ⟨i, by omega, rfl⟩

theorem byteForm_byte {s : Rsp} {w : Word} (h : w.rd = 0) :
    ByteForm s w w.byteE.toNat (s.vecEa w 0) 1 1 where
  store := by
    have h0 : s.vecEa w 0 + BitVec.ofNat 32 0 = s.vecEa w 0 := BitVec.add_zero _
    simp only [swc2, h, storeBytes, List.range_one, List.foldl_cons, List.foldl_nil, h0]
    rfl
  load := by
    intro t ht
    have h0 : s.vecEa w 0 + BitVec.ofNat 32 0 = s.vecEa w 0 := BitVec.add_zero _
    simp only [lwc2, h, loadBytes, List.range_one, List.foldl_cons, List.foldl_nil, vecEa_congr ht,
      h0]
    rfl
  le := le_rfl
  row := by decide
  cover := by simp only [storeCover, h]; exact subset_rfl

/-- ssv, slv, sdv: the load stops at the end of the register. -/
theorem byteForm_fixed {s : Rsp} {w : Word} (h : w.rd = 1 ∨ w.rd = 2 ∨ w.rd = 3) :
    ByteForm s w w.byteE.toNat (s.vecEa w w.rd.toNat) (2 ^ w.rd.toNat)
      (min (2 ^ w.rd.toNat) (16 - w.byteE.toNat)) where
  store := by rcases h with h | h | h <;> simp only [swc2, h] <;> rfl
  load := by
    intro t ht
    rw [← vecEa_congr ht]
    rcases h with h | h | h <;> simp only [lwc2, h] <;> rfl
  le := min_le_left _ _
  row := by rcases h with h | h | h <;> rw [h] <;> decide
  cover := by rcases h with h | h | h <;> simp only [storeCover, h] <;> exact subset_rfl

theorem byteForm_quad {s : Rsp} {w : Word} (h : w.rd = 4) :
    ByteForm s w w.byteE.toNat (s.vecEa w 4) (rowLeft (s.vecEa w 4))
      (min (rowLeft (s.vecEa w 4)) (16 - w.byteE.toNat)) where
  store := by simp only [swc2, h]; rfl
  load := by
    intro t ht
    rw [← vecEa_congr ht]
    simp only [lwc2, h]
    rfl
  le := min_le_left _ _
  row := Nat.sub_le _ _
  cover := by
    rw [rowLeft_toNat]
    simp only [storeCover, h]
    exact subset_rfl

theorem byteForm_right {s : Rsp} {w : Word} (h : w.rd = 5) :
    let start := rowStart (s.vecEa w 4) w.byteE.toNat
    ByteForm s w start (s.vecEa w 4 &&& ~~~15) (16 - start) (16 - start) where
  store := by simp only [swc2, h]; rfl
  load := by
    intro t ht
    rw [← vecEa_congr ht]
    simp only [lwc2, h]
    rfl
  le := le_rfl
  row := Nat.sub_le _ _
  cover := by
    simp only [storeCover, h]
    rw [rowBelow, rowBegin_toNat, sub_rowStart _ w.byteE.isLt]
    exact dmemRange_mono (Nat.sub_le _ _)

theorem exists_byteForm (s : Rsp) {w : Word} (h : w.rd.toNat ≤ 5) :
    ∃ e ea n k, ByteForm s w e ea n k := by
  -- sbv; ssv, slv and sdv; sqv; srv
  have hrd : ∀ x : BitVec 5, x.toNat ≤ 5 →
      x = 0 ∨ (x = 1 ∨ x = 2 ∨ x = 3) ∨ x = 4 ∨ x = 5 := by decide
  rcases hrd w.rd h with h | h | h | h
  · exact ⟨_, _, _, _, byteForm_byte h⟩
  · exact ⟨_, _, _, _, byteForm_fixed h⟩
  · exact ⟨_, _, _, _, byteForm_quad h⟩
  · exact ⟨_, _, _, _, byteForm_right h⟩

theorem ByteForm.roundTrip {s : Rsp} {w : Word} {e n k : ℕ} {ea : Word}
    (h : ByteForm s w e ea n k) : ∃ s', s.swc2 w = some s' ∧ s'.lwc2 w = some s' ∧
      s' = { s with mem := s'.mem } ∧ ∀ a ∉ s.storeCover w, s'.mem a = s.mem a := by
  refine ⟨_, h.store, ?_, s.storeBytes_mem .., fun a ha => ?_⟩
  · rw [h.load _ (s.storeBytes_r ..), s.loadBytes_storeBytes _ _ _ h.row h.le]
  · exact s.storeBytes_out w.rt e fun hin => ha (h.cover hin)

structure SameOperands (w w' : Word) : Prop where
  rs : w'.rs = w.rs
  rt : w'.rt = w.rt
  e : w'.byteE = w.byteE
  offs : w'.offs = w.offs

theorem SameOperands.lwc2 {w w' : Word} (h : SameOperands w w') (hrd : w'.rd = w.rd) (s : Rsp) :
    s.lwc2 w' = s.lwc2 w := by
  simp only [Rsp.lwc2, loadFixed, ltv, loadPacked, vecEa, h.rs, h.rt, h.e, h.offs, hrd]

theorem straight_lwc2 (s : Rsp) {w : Word} (h : w.op = 0x32) : s.straight w = s.lwc2 w := by
  simp only [straight, h]
  rfl

theorem straight_swc2 (s : Rsp) {w : Word} (h : w.op = 0x3a) : s.straight w = s.swc2 w := by
  simp only [straight, h]
  rfl

/-- Store and load of one form, at the same operands: every register is what it was, and memory
changed only where the store goes. -/
theorem store_load_byteForm (s : Rsp) {w w' : Word} (hstore : w.op = 0x3a) (hload : w'.op = 0x32)
    (hsame : SameOperands w w') (hform : w'.rd = w.rd) (hrd : w.rd.toNat ≤ 5) :
    ∃ s', (s.straight w).bind (fun t => t.straight w') = some s' ∧
      s' = { s with mem := s'.mem } ∧ ∀ a ∉ s.storeCover w, s'.mem a = s.mem a := by
  obtain ⟨e, ea, n, k, hbytes⟩ := s.exists_byteForm hrd
  obtain ⟨s', hst, hld, hrest, hout⟩ := hbytes.roundTrip
  refine ⟨s', ?_, hrest, hout⟩
  rw [straight_swc2 s hstore, hst, Option.bind_some, straight_lwc2 s' hload, hsame.lwc2 hform, hld]

/-- sdv and ldv at byte 12, four bytes short. -/
theorem store_load_byteForm_twelve :
    ∃ s', (init.straight 0xe8021e00).bind (fun t => t.straight 0xc8021e00) = some s' ∧
      s' = { init with mem := s'.mem } ∧ ∀ a ∉ init.storeCover 0xe8021e00, s'.mem a = init.mem a :=
  store_load_byteForm init (by decide) (by decide)
    ⟨by decide, by decide, by decide, by decide⟩ (by decide) (by decide)

theorem row_add_sixteen (ea : Word) :
    (ea + 16) &&& ~~~15 = ea + BitVec.ofNat 32 (rowLeft ea) := by
  apply BitVec.eq_of_toNat_eq
  rw [show (ea + 16) &&& ~~~15 = (ea + 16) &&& 0xfffffff0 from rfl, row_toNat, BitVec.toNat_add,
    BitVec.toNat_add, BitVec.toNat_ofNat, rowLeft_toNat, show (16 : Word).toNat = 16 from rfl]
  omega

theorem rowLeft_add_sixteen (ea : Word) : rowLeft (ea + 16) = rowLeft ea := by
  rw [rowLeft_toNat, rowLeft_toNat, BitVec.toNat_add, show (16 : Word).toNat = 16 from rfl]
  omega

/-- The operands of a pair: a quad access, and a right one 16 bytes on, at element 0. -/
structure QuadPair (s : Rsp) (q r : Word) : Prop where
  quad : q.rd = 4
  right : r.rd = 5
  quadE : q.byteE = 0
  rightE : r.byteE = 0
  rt : r.rt = q.rt
  ea : s.vecEa r 4 = s.vecEa q 4 + 16

theorem QuadPair.quadE_toNat {s : Rsp} {q r : Word} (h : QuadPair s q r) : q.byteE.toNat = 0 := by
  rw [h.quadE]
  rfl

theorem QuadPair.rightE_toNat {s : Rsp} {q r : Word} (h : QuadPair s q r) : r.byteE.toNat = 0 := by
  rw [h.rightE]
  rfl

/-- The pair is one loop over the sixteen bytes. -/
theorem QuadPair.load {s : Rsp} {q r : Word} (h : QuadPair s q r) :
    (s.lwc2 q).bind (fun t => t.lwc2 r) = some (s.loadBytes q.rt 0 (s.vecEa q 4) 16) := by
  have hle : rowLeft (s.vecEa q 4) ≤ 16 := Nat.sub_le _ _
  have hq : s.lwc2 q = some (s.loadBytes q.rt 0 (s.vecEa q 4) (rowLeft (s.vecEa q 4))) := by
    rw [(byteForm_quad h.quad).load s rfl, h.quadE_toNat, Nat.sub_zero, Nat.min_eq_left hle]
  have hall := s.loadBytes_add q.rt 0 (s.vecEa q 4) (rowLeft (s.vecEa q 4))
    (16 - rowLeft (s.vecEa q 4))
  rw [Nat.add_sub_cancel' hle, Nat.zero_add] at hall
  rw [hq, Option.bind_some, (byteForm_right h.right).load _ (s.loadBytes_r ..), h.rightE_toNat,
    rowStart_zero, h.rt, h.ea, rowLeft_add_sixteen, row_add_sixteen, hall]

theorem QuadPair.store {s : Rsp} {q r : Word} (h : QuadPair s q r) :
    (s.swc2 q).bind (fun t => t.swc2 r) = some (s.storeBytes q.rt 0 (s.vecEa q 4) 16) := by
  have hle : rowLeft (s.vecEa q 4) ≤ 16 := Nat.sub_le _ _
  have hq : s.swc2 q = some (s.storeBytes q.rt 0 (s.vecEa q 4) (rowLeft (s.vecEa q 4))) := by
    rw [(byteForm_quad h.quad).store, h.quadE_toNat]
  have hall := s.storeBytes_add q.rt 0 (s.vecEa q 4) (rowLeft (s.vecEa q 4))
    (16 - rowLeft (s.vecEa q 4))
  rw [Nat.add_sub_cancel' hle, Nat.zero_add] at hall
  rw [hq, Option.bind_some, (byteForm_right h.right).store, vecEa_congr (s.storeBytes_r ..),
    h.rightE_toNat, rowStart_zero, h.rt, h.ea, rowLeft_add_sixteen, row_add_sixteen, hall]

/-- The load pair: byte `i` of the register is byte `ea + i`, and nothing else changes. -/
structure LoadsQuad (s s' : Rsp) (vt : BitVec 5) (ea : Word) : Prop where
  bytes : ∀ i < 16, s'.vbyte vt i = s.mem ((ea.toNat + i) % 0x1000)
  rest : s' = s.setV vt (s'.v vt)

/-- The store pair: byte `ea + i` is byte `i` of the register, and nothing else changes. -/
structure StoresQuad (s s' : Rsp) (vt : BitVec 5) (ea : Word) : Prop where
  bytes : ∀ i < 16, s'.mem ((ea.toNat + i) % 0x1000) = s.vbyte vt i
  others : ∀ a, (∀ i < 16, a ≠ (ea.toNat + i) % 0x1000) → s'.mem a = s.mem a
  rest : s' = { s with mem := s'.mem }

theorem loadsQuad (s : Rsp) (vt : BitVec 5) (ea : Word) :
    LoadsQuad s (s.loadBytes vt 0 ea 16) vt ea where
  bytes := by
    intro i hi
    rw [s.vbyte_loadBytes vt 0 ea 16 le_rfl i hi, if_pos (by omega), rd8, dmemIdx_ofNat]
    rfl
  rest := s.loadBytes_setV vt 0 ea 16

theorem storesQuad (s : Rsp) (vt : BitVec 5) (ea : Word) :
    StoresQuad s (s.storeBytes vt 0 ea 16) vt ea where
  bytes := by
    intro i hi
    have h := s.storeBytes_in vt 0 ea le_rfl hi
    rwa [dmemIdx_ofNat, Nat.zero_add] at h
  others := by
    intro a ha
    apply storeBytes_out
    rintro ⟨i, hi, heq⟩
    exact ha i hi heq
  rest := s.storeBytes_mem vt 0 ea 16

/-- The pairs tile the sixteen bytes, at any alignment; one after the other they copy a register. -/
theorem quadPair_tiles {s : Rsp} {q r : Word} (h : QuadPair s q r) :
    (∃ s', (s.lwc2 q).bind (fun t => t.lwc2 r) = some s' ∧ LoadsQuad s s' q.rt (s.vecEa q 4)) ∧
      ∃ s', (s.swc2 q).bind (fun t => t.swc2 r) = some s' ∧
        StoresQuad s s' q.rt (s.vecEa q 4) ∧
        ∀ q' r', QuadPair s q' r' → s.vecEa q' 4 = s.vecEa q 4 →
          ∃ s'', (s'.lwc2 q').bind (fun t => t.lwc2 r') = some s'' ∧
            s'' = s'.setV q'.rt (s.v q.rt) := by
  refine ⟨⟨_, h.load, loadsQuad ..⟩, _, h.store, storesQuad .., ?_⟩
  intro q' r' h' hea
  have hst := storesQuad s q.rt (s.vecEa q 4)
  have hr := s.storeBytes_r q.rt 0 (s.vecEa q 4) 16
  generalize s.storeBytes q.rt 0 (s.vecEa q 4) 16 = t at *
  have hpair : QuadPair t q' r' :=
    { h' with ea := by rw [vecEa_congr hr, vecEa_congr hr]; exact h'.ea }
  have hld := loadsQuad t q'.rt (s.vecEa q 4)
  refine ⟨_, hpair.load, ?_⟩
  rw [vecEa_congr hr, hea, hld.rest]
  congr 1
  apply reg_ext
  intro i hi
  exact (hld.bytes i hi).trans (hst.bytes i hi)

/-- From 0xffc on, over the end of DMEM. -/
theorem quadPair_tiles_wrap :
    let s := init.setR 1 0xffc
    let q : Word := 0xc8222000
    let r : Word := 0xc8222801
    (∃ s', (s.lwc2 q).bind (fun t => t.lwc2 r) = some s' ∧ LoadsQuad s s' q.rt (s.vecEa q 4)) ∧
      ∃ s', (s.swc2 q).bind (fun t => t.swc2 r) = some s' ∧
        StoresQuad s s' q.rt (s.vecEa q 4) ∧
        ∀ q' r', QuadPair s q' r' → s.vecEa q' 4 = s.vecEa q 4 →
          ∃ s'', (s'.lwc2 q').bind (fun t => t.lwc2 r') = some s'' ∧
            s'' = s'.setV q'.rt (s.v q.rt) :=
  quadPair_tiles ⟨by decide, by decide, by decide, by decide, by decide, by decide⟩

/-- The store writes the addresses in `A` and no other, whatever memory holds. -/
def WritesExactly (s : Rsp) (w : Word) (A : Set ℕ) : Prop :=
  ∃ x : ℕ → Byte, ∀ m : ℕ → Byte, ∃ m',
    ({ s with mem := m } : Rsp).swc2 w = some { s with mem := m' } ∧
      (∀ a ∈ A, m' a = x a) ∧ ∀ a ∉ A, m' a = m a

theorem WritesExactly.unique {s : Rsp} {w : Word} {A B : Set ℕ} (hA : s.WritesExactly w A)
    (hB : s.WritesExactly w B) : A = B := by
  have hsub : ∀ {A B : Set ℕ}, s.WritesExactly w A → s.WritesExactly w B → A ⊆ B := by
    rintro A B ⟨x, hx⟩ ⟨y, hy⟩ a ha
    by_contra hb
    -- a memory that holds there what the store would not write
    obtain ⟨m', hm', hin, -⟩ := hx fun _ => ~~~ x a
    obtain ⟨m'', hm'', -, hout⟩ := hy fun _ => ~~~ x a
    have hmem : m' = m'' := congrArg mem (Option.some.inj (hm'.symm.trans hm''))
    have heq : x a = ~~~ x a := by
      rw [← hout a hb, ← hmem, hin a ha]
    have hbit := congrArg (fun b : Byte => b.getLsbD 0) heq
    simp at hbit
  exact (hsub hA hB).antisymm (hsub hB hA)

theorem writesExactly_storeBytes {s : Rsp} {w : Word} {e n : ℕ} {ea : Word} (hn : n ≤ 16)
    (h : ∀ m, ({ s with mem := m } : Rsp).swc2 w =
      some (({ s with mem := m } : Rsp).storeBytes w.rt e ea n)) :
    s.WritesExactly w (dmemRange ea.toNat n) := by
  refine ⟨(s.storeBytes w.rt e ea n).mem, fun m =>
    ⟨(({ s with mem := m } : Rsp).storeBytes w.rt e ea n).mem, ?_, ?_, ?_⟩⟩
  · rw [h, storeBytes_eq_writes]
  · rintro _ ⟨i, hi, rfl⟩
    have hm := storeBytes_in ({ s with mem := m } : Rsp) w.rt e ea hn hi
    have hs := storeBytes_in s w.rt e ea hn hi
    rw [dmemIdx_ofNat] at hm hs
    rw [hm, hs]
    rfl
  · intro a ha
    exact storeBytes_out _ w.rt e ha

theorem writesExactly_quad {s : Rsp} {w : Word} (h : w.rd = 4) :
    s.WritesExactly w (rowFrom (s.vecEa w 4)) := by
  rw [rowFrom, ← rowLeft_toNat]
  apply writesExactly_storeBytes (e := w.byteE.toNat) (Nat.sub_le _ _)
  intro m
  exact (@byteForm_quad { s with mem := m } w h).store

/-- srv writes as many bytes as the element leaves it. -/
theorem writesExactly_right {s : Rsp} {w : Word} (h : w.rd = 5) :
    s.WritesExactly w (dmemRange ((s.vecEa w 4).toNat / 16 * 16)
      ((s.vecEa w 4).toNat % 16 - w.byteE.toNat)) := by
  rw [← rowBegin_toNat, ← sub_rowStart _ w.byteE.isLt]
  apply writesExactly_storeBytes (e := rowStart (s.vecEa w 4) w.byteE.toNat) (Nat.sub_le _ _)
  intro m
  exact (@byteForm_right { s with mem := m } w h).store

/-- sqv and srv share out the row of an address. -/
structure SplitsRow (s : Rsp) (q r : Word) (ea : Word) : Prop where
  quad : s.WritesExactly q (rowFrom ea)
  right : s.WritesExactly r (rowBelow ea)
  apart : ∀ a ∈ rowFrom ea, a ∉ rowBelow ea
  whole : rowBelow ea ∪ rowFrom ea = dmemRange (ea.toNat / 16 * 16) 16

theorem row_apart (ea : Word) : ∀ a ∈ rowFrom ea, a ∉ rowBelow ea := by
  rintro _ ⟨i, hi, rfl⟩ ⟨j, hj, heq⟩
  omega

theorem row_whole (ea : Word) :
    rowBelow ea ∪ rowFrom ea = dmemRange (ea.toNat / 16 * 16) 16 := by
  ext a
  constructor
  · rintro (⟨i, hi, rfl⟩ | ⟨i, hi, rfl⟩)
    · exact ⟨i, by omega, rfl⟩
    · exact ⟨ea.toNat % 16 + i, by omega, by congr 1; omega⟩
  · rintro ⟨i, hi, rfl⟩
    by_cases hlt : i < ea.toNat % 16
    · exact Or.inl ⟨i, hlt, rfl⟩
    · exact Or.inr ⟨i - ea.toNat % 16, by omega, by congr 1; omega⟩

/-- srv takes the element off its count of bytes. -/
theorem writesExactly_below_iff {s : Rsp} {w : Word} (h : w.rd = 5) :
    s.WritesExactly w (rowBelow (s.vecEa w 4)) ↔
      w.byteE.toNat = 0 ∨ (s.vecEa w 4).toNat % 16 = 0 := by
  have hright := writesExactly_right (s := s) h
  constructor
  · intro hbelow
    have hcount := dmemRange_inj (by omega) (by omega) (hright.unique hbelow)
    omega
  · intro hzero
    have hcount : (s.vecEa w 4).toNat % 16 - w.byteE.toNat = (s.vecEa w 4).toNat % 16 := by omega
    rwa [hcount] at hright

/-- The two share out the row exactly at element 0, or where nothing is below the address. -/
theorem splitsRow_iff {s : Rsp} {q r : Word} (hq : q.rd = 4) (hr : r.rd = 5)
    (hea : s.vecEa q 4 = s.vecEa r 4) :
    SplitsRow s q r (s.vecEa r 4) ↔ r.byteE = 0 ∨ (s.vecEa r 4).toNat % 16 = 0 := by
  have hzero : r.byteE = 0 ↔ r.byteE.toNat = 0 := BitVec.toNat_inj.symm
  rw [hzero, ← writesExactly_below_iff hr]
  constructor
  · exact SplitsRow.right
  · intro h
    refine ⟨?_, h, row_apart _, row_whole _⟩
    rw [← hea]
    exact writesExactly_quad hq

/-- Address 8, element 0. -/
theorem splitsRow_iff_eight :
    let s := init.setR 1 8
    SplitsRow s 0xe8222000 0xe8222800 (s.vecEa 0xe8222800 4) ↔
      (0xe8222800 : Word).byteE = 0 ∨ (s.vecEa 0xe8222800 4).toNat % 16 = 0 :=
  splitsRow_iff (by decide) (by decide) (by decide)

/-- Address 8, element 1: srv writes seven bytes of the eight. -/
theorem not_splitsRow :
    ¬ SplitsRow (init.setR 1 8) 0xe8222080 0xe8222880 ((init.setR 1 8).vecEa 0xe8222880 4) := by
  intro h
  have hbelow := (writesExactly_below_iff (by decide)).mp h.right
  exact absurd hbelow (by decide)

end RspBt.Rsp
