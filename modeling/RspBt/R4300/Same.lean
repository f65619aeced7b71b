import Mathlib.Logic.Function.Basic
import RspBt.R4300.EmitOne

namespace RspBt.R4300

/-- Equal but for the scratch word, and for register 0, which is not read. -/
structure Same (m m' : Mach) : Prop where
  gpr : ∀ r, m.getGPR r = m'.getGPR r
  lo : m.lo = m'.lo
  hi : m.hi = m'.hi
  cpr1 : m.cpr1 = m'.cpr1
  fcc : m.fcc = m'.fcc
  ram : ∀ a, a < 0x00700b00 ∨ 0x00700b00 + 8 ≤ a → m.ram a = m'.ram a

def accessBytes (insn : Word) : ℕ :=
  match insn.op with
  | 0x20 | 0x24 | 0x28 => 1
  | 0x21 | 0x25 | 0x29 => 2
  | 0x23 | 0x27 | 0x2b | 0x31 | 0x39 => 4
  | 0x37 | 0x3f | 0x35 | 0x3d => 8
  | _ => 0

def Away (insn : Word) (m : Mach) : Prop :=
  let pa := (physAddr (m.effAddr insn)).toNat
  accessBytes insn = 0 ∨ pa + accessBytes insn ≤ 0x00700b00 ∨ 0x00700b00 + 8 ≤ pa

variable {m m' m'' : Mach} {insn : Word} {w n : ℕ}

namespace Same

theorem refl (m : Mach) : Same m m := ⟨fun _ => rfl, rfl, rfl, rfl, rfl, fun _ _ => rfl⟩

theorem symm (h : Same m m') : Same m' m :=
  ⟨fun r => (h.gpr r).symm, h.lo.symm, h.hi.symm, h.cpr1.symm, h.fcc.symm,
    fun a ha => (h.ram a ha).symm⟩

theorem trans (h : Same m m') (h' : Same m' m'') : Same m m'' :=
  ⟨fun r => (h.gpr r).trans (h'.gpr r), h.lo.trans h'.lo, h.hi.trans h'.hi, h.cpr1.trans h'.cpr1,
    h.fcc.trans h'.fcc, fun a ha => (h.ram a ha).trans (h'.ram a ha)⟩

theorem of_gpr (m : Mach) {gpr : BitVec 5 → BitVec 64} (h : ∀ r, r ≠ 0 → gpr r = m.gpr r) :
    Same m { m with gpr := gpr } := by
  refine ⟨fun r => ?_, rfl, rfl, rfl, rfl, fun _ _ => rfl⟩
  unfold Mach.getGPR
  split_ifs with hr
  · rfl
  · exact (h r hr).symm

theorem load (h : Same m m') (p : StatePtr w) : m.load p = m'.load p := by
  cases p with
  | lo => exact h.lo
  | hi => exact h.hi
  | fcc => exact h.fcc
  | word i => exact congrFun h.cpr1 i
  | slot i => simp only [Mach.load, h.cpr1]

theorem effAddr (h : Same m m') (insn : Word) : m.effAddr insn = m'.effAddr insn := by
  simp only [Mach.effAddr, h.gpr]

theorem loadBytes {ram ram' : ℕ → Byte} {a : ℕ} (h : ∀ x, a ≤ x → x < a + n → ram x = ram' x) :
    R4300.loadBytes ram a n = R4300.loadBytes ram' a n := by
  induction n with
  | zero => rfl
  | succ n ih =>
    have hlast : ram (a + n) = ram' (a + n) := h (a + n) (by omega) (by omega)
    have hinit : R4300.loadBytes ram a n = R4300.loadBytes ram' a n :=
      ih fun x hx hxn => h x hx (by omega)
    simp only [R4300.loadBytes, hinit, hlast]

theorem loadMem (h : Same m m') (ha : Away insn m) (hn : n = accessBytes insn) :
    m.loadMem (m.effAddr insn) n = m'.loadMem (m'.effAddr insn) n := by
  unfold Mach.loadMem
  rw [← h.effAddr]
  unfold Away at ha
  exact loadBytes fun x hx hxn => h.ram x (by omega)

theorem setGPR (h : Same m m') (r : BitVec 5) (v : BitVec 64) :
    Same (m.setGPR none r v) (m'.setGPR none r v) := by
  unfold Mach.setGPR
  split_ifs with hr
  · exact h
  · refine ⟨fun r' => ?_, h.lo, h.hi, h.cpr1, h.fcc, h.ram⟩
    have hr' := h.gpr r'
    unfold Mach.getGPR at hr' ⊢
    split_ifs at hr' ⊢ with h0
    · rfl
    · by_cases heq : r' = r
      · subst heq
        simp only [Function.update_self, guarded]
      · simp only [Function.update_of_ne heq]
        exact hr'

theorem storeGuarded (h : Same m m') (p : StatePtr w) (v : BitVec w) :
    Same (m.storeGuarded none p v) (m'.storeGuarded none p v) := by
  cases p with
  | lo => exact ⟨h.gpr, rfl, h.hi, h.cpr1, h.fcc, h.ram⟩
  | hi => exact ⟨h.gpr, h.lo, rfl, h.cpr1, h.fcc, h.ram⟩
  | fcc => exact ⟨h.gpr, h.lo, h.hi, h.cpr1, rfl, h.ram⟩
  | word i =>
    refine ⟨h.gpr, h.lo, h.hi, ?_, h.fcc, h.ram⟩
    simp only [Mach.storeGuarded, Mach.store, guarded, h.cpr1]
  | slot i =>
    refine ⟨h.gpr, h.lo, h.hi, ?_, h.fcc, h.ram⟩
    simp only [Mach.storeGuarded, Mach.store, guarded, h.cpr1]

theorem storeMem (h : Same m m') (ea : BitVec 64) (v : BitVec (8 * n)) :
    Same (m.storeMem none ea n v) (m'.storeMem none ea n v) := by
  refine ⟨h.gpr, h.lo, h.hi, h.cpr1, h.fcc, fun a ha => ?_⟩
  simp only [Mach.storeMem, storeBytes, h.ram a ha]

end Same

/-- A value that code of the word computes from states it cannot tell apart. -/
def Determined {α : Type*} (insn : Word) (v : Mach → α) : Prop :=
  ∀ m m', Same m m' → Away insn m → v m = v m'

/-- The ways to an effect.  A word that writes twice read both values before either. -/
inductive Emit.Effect (insn : Word) : Emit → Prop
  | reg (r : BitVec 5) (v : Mach → BitVec 64) (hv : Determined insn v) :
      Effect insn fun pred m => m.setGPR pred r (v m)
  | state {w : ℕ} (p : StatePtr w) (v : Mach → BitVec w) (hv : Determined insn v) :
      Effect insn fun pred m => m.storeGuarded pred p (v m)
  | state₂ {w w' : ℕ} (p : StatePtr w) (q : StatePtr w') (u : Mach → BitVec w)
      (v : Mach → BitVec w') (hu : Determined insn u) (hv : Determined insn v) :
      Effect insn fun pred m => (m.storeGuarded pred p (u m)).storeGuarded pred q (v m)
  | mem {n : ℕ} (hn : n ≤ 8) (v : Mach → BitVec (8 * n)) (hv : Determined insn v) :
      Effect insn fun pred m => m.storeMem pred (m.effAddr insn) n (v m)

namespace Emit

theorem effect_emitArith (fp : Fp w) (ptr : BitVec 5 → StatePtr w) {f : Emit}
    (h : emitArith fp ptr insn = some f) : Effect insn f := by
  unfold emitArith at h
  simp only at h
  split at h
  case h_13 => cases h
  all_goals
    obtain rfl := Option.some.inj h
    apply Effect.state
    intro m m' hs _
    simp only [hs.load]

theorem effect_emitCop1 {fp : FpUnit} {f : Emit} (h : emitCop1 fp insn = some f) :
    Effect insn f := by
  unfold emitCop1 at h
  split at h
  · obtain rfl := Option.some.inj h
    apply Effect.reg
    intro m m' hs _
    simp only [hs.load]
  · obtain rfl := Option.some.inj h
    apply Effect.state
    intro m m' hs _
    simp only [hs.gpr]
  · split_ifs at h
    · obtain rfl := Option.some.inj h
      apply Effect.state
      intro m m' hs _
      simp only [hs.load]
    · exact effect_emitArith _ _ h
  · split_ifs at h
    · obtain rfl := Option.some.inj h
      apply Effect.state
      intro m m' hs _
      simp only [hs.load]
    · exact effect_emitArith _ _ h
  · split at h
    case h_3 => cases h
    all_goals
      obtain rfl := Option.some.inj h
      apply Effect.state
      intro m m' hs _
      simp only [hs.load]
  · cases h

theorem effect_emitMult (insn : Word) (ext : Word → BitVec 64)
    (shift : BitVec 64 → BitVec 64) : Effect insn (emitMult insn ext shift) := by
  apply Effect.state₂ .lo .hi
    (fun m => sext32 (lo32 (ext (lo32 (m.getGPR insn.rs)) * ext (lo32 (m.getGPR insn.rt)))))
    (fun m => sext32 (lo32 (shift (ext (lo32 (m.getGPR insn.rs)) * ext (lo32 (m.getGPR insn.rt))))))
  · intro m m' hs _
    simp only [hs.gpr]
  · intro m m' hs _
    simp only [hs.gpr]

theorem effect_emitDiv (insn : Word) (sgn : Bool) : Effect insn (emitDiv insn sgn) := by
  unfold emitDiv
  refine .state₂ .lo .hi _ _ ?_ ?_
  · intro m m' hs _
    simp only [hs.gpr, hs.load]
  · intro m m' hs _
    simp only [hs.gpr, hs.load]

theorem effect_emitSpecial {f : Emit} (h : emitSpecial insn = some f) : Effect insn f := by
  unfold emitSpecial at h
  simp only at h
  split at h
  case h_14 | h_16 =>
    obtain rfl := Option.some.inj h
    apply Effect.state
    intro m m' hs _
    simp only [hs.gpr]
  case h_17 | h_18 =>
    obtain rfl := Option.some.inj h
    exact effect_emitMult _ _ _
  case h_19 | h_20 =>
    obtain rfl := Option.some.inj h
    exact effect_emitDiv _ _
  case h_23 => cases h
  all_goals
    obtain rfl := Option.some.inj h
    apply Effect.reg
    intro m m' hs _
    simp only [hs.gpr, hs.load]

theorem effect_emitOne {fp : FpUnit} {f : Emit} (h : emitOne fp insn = some f) :
    Effect insn f := by
  unfold emitOne at h
  simp only at h
  split at h
  case h_1 => exact effect_emitSpecial h
  case h_16 | h_17 | h_18 | h_19 =>
    obtain rfl := Option.some.inj h
    apply Effect.mem (by decide)
    intro m m' hs _
    simp only [hs.gpr]
  case h_22 | h_23 =>
    obtain rfl := Option.some.inj h
    apply Effect.mem (by decide)
    intro m m' hs _
    simp only [hs.load]
  case h_20 hop | h_21 hop =>
    obtain rfl := Option.some.inj h
    apply Effect.state
    intro m m' hs ha
    exact hs.loadMem ha (by simp only [accessBytes, hop])
  case h_24 => exact effect_emitCop1 h
  case h_25 => cases h
  -- the loads, of words that are sign-extended, zero-extended or whole
  case h_9 hop | h_10 hop | h_11 hop =>
    obtain rfl := Option.some.inj h
    apply Effect.reg
    intro m m' hs ha
    exact congrArg (BitVec.signExtend 64) (hs.loadMem ha (by simp only [accessBytes, hop]))
  case h_12 hop | h_13 hop | h_14 hop =>
    obtain rfl := Option.some.inj h
    apply Effect.reg
    intro m m' hs ha
    exact congrArg (BitVec.setWidth 64) (hs.loadMem ha (by simp only [accessBytes, hop]))
  case h_15 hop =>
    obtain rfl := Option.some.inj h
    apply Effect.reg
    intro m m' hs ha
    exact hs.loadMem ha (by simp only [accessBytes, hop])
  all_goals
    obtain rfl := Option.some.inj h
    apply Effect.reg
    intro m m' hs _
    simp only [hs.gpr]

/-- Code that stays off the scratch word keeps states apart by it only. -/
theorem Effect.same {f : Emit} (hf : Effect insn f) (h : Same m m') (ha : Away insn m) :
    Same (f none m) (f none m') := by
  cases hf with
  | reg r v hv =>
    simp only [hv m m' h ha]
    exact h.setGPR r (v m')
  | state p v hv =>
    simp only [hv m m' h ha]
    exact h.storeGuarded p (v m')
  | state₂ p q u v hu hv =>
    simp only [hu m m' h ha, hv m m' h ha]
    exact (h.storeGuarded p (u m')).storeGuarded q (v m')
  | mem hn v hv =>
    simp only [hv m m' h ha, h.effAddr]
    exact h.storeMem _ (v m')

end Emit

end RspBt.R4300
