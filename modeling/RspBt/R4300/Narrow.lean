import RspBt.R4300.Finishes
import RspBt.R4300.Kept
import RspBt.R4300.MulDiv

namespace RspBt.R4300

open Lib

def Narrow (v : BitVec 64) : Prop := sext32 (lo32 v) = v

structure Mach.Narrow (m : Mach) : Prop where
  gpr : ∀ r, R4300.Narrow (m.getGPR r)
  lo : R4300.Narrow m.lo
  hi : R4300.Narrow m.hi

def StatePtr.IsFp {w : ℕ} : StatePtr w → Prop
  | .lo | .hi => False
  | .fcc | .word _ | .slot _ => True

def isWideLoad (insn : Word) : Bool := insn.op = 0x27 ∨ insn.op = 0x37

theorem narrow_sext32 (x : Word) : Narrow (sext32 x) := by
  rw [Narrow, lo32_sext32]

theorem narrow_and {a b : BitVec 64} (ha : Narrow a) (hb : Narrow b) : Narrow (a &&& b) := by
  rw [Narrow, lo32, BitVec.setWidth_and, sext32, BitVec.signExtend_and]
  exact congrArg₂ (· &&& ·) ha hb

theorem narrow_or {a b : BitVec 64} (ha : Narrow a) (hb : Narrow b) : Narrow (a ||| b) := by
  rw [Narrow, lo32, BitVec.setWidth_or, sext32, BitVec.signExtend_or]
  exact congrArg₂ (· ||| ·) ha hb

theorem narrow_xor {a b : BitVec 64} (ha : Narrow a) (hb : Narrow b) : Narrow (a ^^^ b) := by
  rw [Narrow, lo32, BitVec.setWidth_xor, sext32, BitVec.signExtend_xor]
  exact congrArg₂ (· ^^^ ·) ha hb

theorem narrow_not {a : BitVec 64} (ha : Narrow a) : Narrow (~~~a) := by
  rw [Narrow, lo32, BitVec.setWidth_not (by decide), sext32, BitVec.signExtend_not (by decide)]
  exact congrArg (~~~ ·) ha

theorem narrow_signExtend {w : ℕ} (hw : w ≤ 32) (x : BitVec w) : Narrow (x.signExtend 64) := by
  apply BitVec.eq_of_toInt_eq
  have hlo : lo32 (x.signExtend 64) = x.signExtend 32 := by
    apply BitVec.eq_of_getLsbD_eq
    intro i hi
    rw [lo32, BitVec.getLsbD_setWidth, BitVec.getLsbD_signExtend, BitVec.getLsbD_signExtend,
      decide_eq_true hi, decide_eq_true (by omega : i < 64)]
    rfl
  rw [hlo, sext32, BitVec.toInt_signExtend_of_le (by decide), BitVec.toInt_signExtend_of_le hw,
    BitVec.toInt_signExtend_of_le (by omega)]

theorem narrow_of_lt {v : BitVec 64} (h : v.toNat < 2 ^ 31) : Narrow v := by
  have hlo : (lo32 v).toNat = v.toNat := by
    rw [lo32, BitVec.toNat_setWidth, Nat.mod_eq_of_lt (by omega)]
  apply BitVec.eq_of_toInt_eq
  rw [toInt_sext32, BitVec.toInt_eq_toNat_of_lt (by omega), BitVec.toInt_eq_toNat_of_lt (by omega), hlo]

theorem narrow_setWidth {w : ℕ} (hw : w < 32) (x : BitVec w) : Narrow (x.setWidth 64) := by
  apply narrow_of_lt
  rw [BitVec.toNat_setWidth]
  have hpow : 2 ^ w ≤ 2 ^ 31 := Nat.pow_le_pow_right (by decide) (by omega)
  exact (Nat.mod_le _ _).trans_lt (x.isLt.trans_le hpow)

theorem narrow_uimm (insn : Word) : Narrow (insn.uimm.setWidth 64) := by
  apply narrow_of_lt
  have huimm : insn.uimm.toNat < 2 ^ 16 := by
    rw [Word.uimm, BitVec.toNat_and]
    exact Nat.and_lt_two_pow _ (by decide)
  rw [BitVec.toNat_setWidth]
  omega

theorem narrow_boolDword (p : Bool) : Narrow (boolDword p) := by
  cases p <;> rfl

theorem narrow_guarded (pred : Option Bool) {new old : BitVec 64} (hn : Narrow new)
    (ho : Narrow old) : Narrow (guarded pred new old) := by
  cases pred with
  | none => exact hn
  | some p =>
    cases p with
    | false => exact ho
    | true => exact hn

namespace Mach.Narrow

variable {m : Mach} (hm : m.Narrow) (pred : Option Bool)
include hm

theorem setGPR (r : BitVec 5) {v : BitVec 64} (hv : R4300.Narrow v) : (m.setGPR pred r v).Narrow := by
  unfold Mach.setGPR
  split_ifs
  · exact hm
  · refine ⟨fun i => ?_, hm.lo, hm.hi⟩
    have hi := hm.gpr i
    unfold Mach.getGPR at hi ⊢
    split_ifs at hi ⊢ with h0
    · exact hi
    · by_cases hir : i = r
      · subst hir
        simp only [Function.update_self]
        exact narrow_guarded pred hv hi
      · simp only [Function.update_of_ne hir]
        exact hi

theorem storeMem (ea : BitVec 64) (n : ℕ) (v : BitVec (8 * n)) : (m.storeMem pred ea n v).Narrow :=
  ⟨hm.gpr, hm.lo, hm.hi⟩

theorem storeLo {v : BitVec 64} (hv : R4300.Narrow v) : (m.storeGuarded pred .lo v).Narrow :=
  ⟨hm.gpr, narrow_guarded pred hv hm.lo, hm.hi⟩

theorem storeHi {v : BitVec 64} (hv : R4300.Narrow v) : (m.storeGuarded pred .hi v).Narrow :=
  ⟨hm.gpr, hm.lo, narrow_guarded pred hv hm.hi⟩

theorem storeFp {w : ℕ} {p : StatePtr w} (hp : p.IsFp) (v : BitVec w) :
    (m.storeGuarded pred p v).Narrow := by
  cases p with
  | lo | hi => exact hp.elim
  | fcc | word _ | slot _ => exact ⟨hm.gpr, hm.lo, hm.hi⟩

theorem same {m' : Mach} (hs : Same m m') : m'.Narrow :=
  ⟨fun r => hs.gpr r ▸ hm.gpr r, hs.lo ▸ hm.lo, hs.hi ▸ hm.hi⟩

theorem linked (pc insn : Word) : (linked pc insn m).Narrow := by
  unfold R4300.linked
  split_ifs
  · exact hm.setGPR none 31 (narrow_sext32 _)
  · exact hm

end Mach.Narrow

variable {m : Mach} {insn : Word} {w : ℕ}

theorem emitArith_narrow {fp : Fp w} {ptr : BitVec 5 → StatePtr w} (hptr : ∀ r, (ptr r).IsFp)
    {f : Emit} (h : emitArith fp ptr insn = some f) (pred : Option Bool) (hm : m.Narrow) :
    (f pred m).Narrow := by
  unfold emitArith at h
  simp only at h
  split at h
  case h_13 => cases h
  case h_8 =>
    obtain rfl := Option.some.inj h
    exact hm.storeFp pred (by trivial) _
  case h_9 | h_10 | h_11 | h_12 =>
    obtain rfl := Option.some.inj h
    exact hm.storeFp pred (by trivial) _
  all_goals
    obtain rfl := Option.some.inj h
    exact hm.storeFp pred (hptr _) _

theorem emitCop1_narrow {fp : FpUnit} {f : Emit} (h : emitCop1 fp insn = some f)
    (pred : Option Bool) (hm : m.Narrow) : (f pred m).Narrow := by
  unfold emitCop1 at h
  split at h
  · obtain rfl := Option.some.inj h
    exact hm.setGPR pred _ (narrow_sext32 _)
  · obtain rfl := Option.some.inj h
    exact hm.storeFp pred (by trivial) _
  · split_ifs at h
    · obtain rfl := Option.some.inj h
      exact hm.storeFp pred (by trivial) _
    · exact emitArith_narrow (by exact fun _ => trivial) h pred hm
  · split_ifs at h
    · obtain rfl := Option.some.inj h
      exact hm.storeFp pred (by trivial) _
    · exact emitArith_narrow (by exact fun _ => trivial) h pred hm
  · split at h
    case h_3 => cases h
    all_goals
      obtain rfl := Option.some.inj h
      exact hm.storeFp pred (by trivial) _
  · cases h

theorem emitMult_narrow (insn : Word) (ext : Word → BitVec 64) (shift : BitVec 64 → BitVec 64)
    (pred : Option Bool) (hm : m.Narrow) : (emitMult insn ext shift pred m).Narrow :=
  (hm.storeLo pred (narrow_sext32 _)).storeHi pred (narrow_sext32 _)

theorem emitDiv_narrow (insn : Word) (sgn : Bool) (pred : Option Bool) (hm : m.Narrow) :
    (emitDiv insn sgn pred m).Narrow := by
  have hword (nz : Bool) {a b : Word} {old : BitVec 64} (ho : Narrow old) :
      Narrow (if nz then if sgn then sext32 a else sext32 b else old) := by
    split_ifs
    · exact narrow_sext32 _
    · exact narrow_sext32 _
    · exact ho
  exact (hm.storeLo pred (hword _ hm.lo)).storeHi pred (hword _ hm.hi)

theorem emitSpecial_narrow {f : Emit} (h : emitSpecial insn = some f) (pred : Option Bool)
    (hm : m.Narrow) : (f pred m).Narrow := by
  have hrs := hm.gpr insn.rs
  have hrt := hm.gpr insn.rt
  unfold emitSpecial at h
  simp only at h
  split at h
  case h_23 => cases h
  all_goals obtain rfl := Option.some.inj h
  case h_9 => exact hm.setGPR pred _ (narrow_and hrs hrt)
  case h_10 => exact hm.setGPR pred _ (narrow_or hrs hrt)
  case h_11 => exact hm.setGPR pred _ (narrow_xor hrs hrt)
  case h_12 => exact hm.setGPR pred _ (narrow_not (narrow_or hrs hrt))
  case h_13 => exact hm.setGPR pred _ hm.hi
  case h_14 => exact hm.storeHi pred hrs
  case h_15 => exact hm.setGPR pred _ hm.lo
  case h_16 => exact hm.storeLo pred hrs
  case h_17 | h_18 => exact emitMult_narrow insn _ _ pred hm
  case h_19 | h_20 => exact emitDiv_narrow insn _ pred hm
  case h_21 | h_22 => exact hm.setGPR pred _ (narrow_boolDword _)
  all_goals exact hm.setGPR pred _ (narrow_sext32 _)

/-- The code of any word but an unsigned or double load. -/
theorem emitOne_narrow {fp : FpUnit} {f : Emit} (h : emitOne fp insn = some f)
    (hwide : isWideLoad insn = false) (pred : Option Bool) (hm : m.Narrow) : (f pred m).Narrow := by
  have hrs := hm.gpr insn.rs
  have himm := narrow_uimm insn
  unfold emitOne at h
  simp only at h
  split at h
  case h_1 => exact emitSpecial_narrow h pred hm
  case h_24 => exact emitCop1_narrow h pred hm
  case h_25 => cases h
  case h_14 hop | h_15 hop => simp [isWideLoad, hop] at hwide
  all_goals obtain rfl := Option.some.inj h
  case h_5 => exact hm.setGPR pred _ (narrow_and hrs himm)
  case h_6 => exact hm.setGPR pred _ (narrow_or hrs himm)
  case h_7 => exact hm.setGPR pred _ (narrow_xor hrs himm)
  case h_3 | h_4 => exact hm.setGPR pred _ (narrow_boolDword _)
  case h_2 | h_8 => exact hm.setGPR pred _ (narrow_sext32 _)
  case h_9 | h_10 | h_11 => exact hm.setGPR pred _ (narrow_signExtend (by decide) _)
  case h_12 | h_13 => exact hm.setGPR pred _ (narrow_setWidth (by decide) _)
  case h_16 | h_17 | h_18 | h_19 | h_22 | h_23 => exact hm.storeMem pred _ _ _
  case h_20 | h_21 => exact hm.storeFp pred (by trivial) _

def branchCond32 (insn : Word) (reg : BitVec 5 → Word) (fcc : Word) : Bool :=
  let vs := reg insn.rs
  match insn.op with
  | 0x04 | 0x14 => vs = reg insn.rt
  | 0x05 | 0x15 => vs ≠ reg insn.rt
  | 0x06 | 0x16 => vs.sle 0
  | 0x07 | 0x17 => (0 : Word).slt vs
  | 0x01 => if insn.rt &&& 1 = 0 then vs.slt 0 else (0 : Word).sle vs
  | 0x11 =>
    let bit := fcc &&& 1 <<< (insn >>> 18 &&& 7).toNat
    if insn.rt &&& 1 ≠ 0 then bit ≠ 0 else bit = 0
  | _ => false

theorem toInt_narrow {a : BitVec 64} (ha : Narrow a) : a.toInt = (lo32 a).toInt := by
  rw [← toInt_sext32, ha]

theorem narrow_eq_iff {a b : BitVec 64} (ha : Narrow a) (hb : Narrow b) : a = b ↔ lo32 a = lo32 b := by
  constructor
  · exact congrArg lo32
  · intro h
    rw [← ha, ← hb, h]

/-- On narrow registers a branch goes as it does on words. -/
theorem branchCond_narrow (hm : m.Narrow) (insn : Word) :
    branchCond insn m = branchCond32 insn (fun r => lo32 (m.getGPR r)) m.fcc := by
  have hrs := hm.gpr insn.rs
  have heq := narrow_eq_iff hrs (hm.gpr insn.rt)
  have hint := toInt_narrow hrs
  have hzero : (0 : BitVec 64).toInt = (0 : Word).toInt := rfl
  unfold branchCond branchCond32
  simp only [ne_eq, heq, BitVec.slt_eq_decide, BitVec.sle_eq_decide, hint, hzero, Mach.load]
  rfl

/-- No word of the program is a wide load, and what the interpreter alone executes leaves words in
the registers too. -/
structure Narrows (e : Env) (fp : FpUnit) (g : Guest) : Prop where
  code : ∀ pc insn, e.read pc = some insn → isWideLoad insn = false
  execs : ∀ q, g.Execs e fp q
  rest : ∀ q, ¬ e.Translated fp q → q.m.Narrow → (g.execMips q).m.Narrow

namespace Narrows

variable {e : Env} {fp : FpUnit} {g : Guest}

theorem execMips (h : Narrows e fp g) (q : StateT) (hq : q.m.Narrow) : (g.execMips q).m.Narrow := by
  by_cases ht : e.Translated fp q
  · obtain ⟨insn, hr, ⟨hctl, code, hone⟩ | ⟨hctl, slot, code, hslot, hone⟩⟩ := ht
    · have hm := ((h.execs q).plain insn code hr hctl hone).m
      exact (emitOne_narrow hone (h.code _ insn hr) none hq).same hm.symm
    · have hm := ((h.execs q).transfer insn slot code hr hctl hslot hone).m
      have hlinked := hq.linked (lo32 q.pc) insn
      refine Mach.Narrow.same ?_ hm.symm
      simp only [execCtl]
      split_ifs
      · exact hlinked
      · exact emitOne_narrow hone (h.code _ slot hslot) none hlinked
  · exact h.rest q ht hq

theorem kept (h : Narrows e fp g) : Kept e fp g Mach.Narrow where
  word pc insn _ hr hone pred _ hm := emitOne_narrow hone (h.code pc insn hr) pred hm
  guest q hq := h.execMips q hq
  link _ _ hm := hm.setGPR none 31 (narrow_sext32 _)
  gpr _ _ hm hm' := ⟨hm'.gpr, hm.lo, hm.hi⟩
  zero _ _ hm _ := hm.same (.of_gpr _ fun _ hr => if_neg hr)

end Narrows

/-- A 32-bit program stays one: whatever a translated function runs, through calls and the
interpreter, it returns with words in the registers; they are there wherever control is in the
function, and every branch goes as it does on words. -/
theorem runs_narrow {e : Env} {fp : FpUnit} {g : Guest} (h : Narrows e fp g)
    (c : Cfg) (entries : List Word) {entry : Word} {s : Mach} (hs : s.Narrow) :
    (∀ s' r, (translate e fp c entries).Runs g entry s s' r → s'.Narrow) ∧
    ∀ gf b pc f, (translate e fp c entries).fns entry = some gf →
      Relation.ReflTransGen (Step (translate e fp c entries).emitter gf
        (R4300bt.calls g ((translate e fp c entries).Runs g))) (gf.start entry s) (.inside b pc f) →
      f.m.Narrow ∧ f.state.Narrow ∧
        ∀ insn, branchCond insn f.m = branchCond32 insn (fun r => lo32 (f.m.getGPR r)) f.m.fcc := by
  refine ⟨fun s' r hrun => h.kept.runs rfl rfl hrun hs, fun gf b pc f _ hy => ?_⟩
  obtain ⟨hm, hst⟩ := h.kept.inside rfl rfl hs hy
  exact ⟨hm, hst, branchCond_narrow hm⟩

theorem bailing_narrows : Narrows bailing .zero bailingGuest where
  code pc insn h := by
    have hall : ([0x03e08025, 0x0c000050, 0, 0x0200f825, 0x03e00008, 0, 0x40800000, 0x03e00008,
        0] : List Word).all fun x => isWideLoad x = false := by decide
    have hmem := List.mem_map_of_mem (f := Prod.snd) (mem_of_lookup h)
    exact of_decide_eq_true (List.all_eq_true.mp hall insn hmem)
  execs _ := Env.guest_execs
  rest q ht hq := by
    have hrest : bailingGuest.execMips q = bailingRest q := Env.guest_rest ht
    rw [hrest]
    unfold bailingRest
    split_ifs
    · exact hq
    · exact hq

theorem bailingState_narrow : bailingState.Narrow where
  gpr r := by
    simp only [bailingState, Mach.getGPR]
    split_ifs <;> rfl
  lo := rfl
  hi := rfl

/-- A call that bails, finished by the interpreter. -/
theorem runs_narrow_bailing : ∃ (s' : Mach) (r : Word),
    bailingBt.Runs bailingGuest 0x100 bailingState s' r ∧ s'.Narrow := by
  obtain ⟨s', r, hrun⟩ := (made_translate discover_bailing bailing_below [0x100, 0x140]).finishes
    (by decide) bailing_disciplined bailing_returns bailing_mapped rfl (.refl bailingState) rfl
  exact ⟨s', r, hrun, (runs_narrow bailing_narrows bailingCfg [0x100, 0x140] bailingState_narrow).1
    s' r hrun⟩

end RspBt.R4300
