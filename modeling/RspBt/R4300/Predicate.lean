import RspBt.R4300.Same

namespace RspBt.R4300

/-- Nothing changed but the scratch word. -/
structure Squashed (m m' : Mach) : Prop where
  gpr : m'.gpr = m.gpr
  lo : m'.lo = m.lo
  hi : m'.hi = m.hi
  cpr1 : m'.cpr1 = m.cpr1
  fcc : m'.fcc = m.fcc
  ram : ∀ a, a < 0x00700b00 ∨ 0x00700b00 + 8 ≤ a → m'.ram a = m.ram a

/-- Under a predicate the code does what it does without one, or nothing. -/
structure Emit.Predicated (f : Emit) : Prop where
  taken : ∀ m, f (some true) m = f none m
  squashed : ∀ m, Squashed m (f (some false) m)

theorem Squashed.refl (m : Mach) : Squashed m m := ⟨rfl, rfl, rfl, rfl, rfl, fun _ _ => rfl⟩

theorem Same.of_squashed {m m' : Mach} (h : Squashed m m') : Same m m' where
  gpr r := by simp only [Mach.getGPR, h.gpr]
  lo := h.lo.symm
  hi := h.hi.symm
  cpr1 := h.cpr1.symm
  fcc := h.fcc.symm
  ram a ha := (h.ram a ha).symm

namespace Mach

theorem setGPR_taken (m : Mach) (r : BitVec 5) (v : BitVec 64) :
    m.setGPR (some true) r v = m.setGPR none r v := rfl

theorem setGPR_squashed (m : Mach) (r : BitVec 5) (v : BitVec 64) :
    m.setGPR (some false) r v = m := by
  unfold setGPR
  split_ifs
  · rfl
  · have hold : guarded (some false) v (m.gpr r) = m.gpr r := rfl
    rw [hold, Function.update_eq_self]

theorem lo32_append (x y : Word) : lo32 (x ++ y) = y ∧ lo32 ((x ++ y) >>> 32) = x := by
  constructor
  · apply BitVec.eq_of_getLsbD_eq
    intro j hj
    rw [lo32, BitVec.getLsbD_setWidth, decide_eq_true hj, Bool.true_and]
    exact (BitVec.getLsbD_append ..).trans (if_pos hj)
  · apply BitVec.eq_of_getLsbD_eq
    intro j hj
    rw [lo32, BitVec.getLsbD_setWidth, decide_eq_true hj, Bool.true_and, BitVec.getLsbD_ushiftRight]
    refine (BitVec.getLsbD_append ..).trans ?_
    rw [if_neg (by omega), Nat.add_sub_cancel_left]

theorem store_load (m : Mach) {w : ℕ} (p : StatePtr w) : m.store p (m.load p) = m := by
  cases p with
  | word i =>
    simp only [store, load, Function.update_eq_self]
  | slot i =>
    obtain ⟨hlow, hhigh⟩ := lo32_append (m.cpr1 (i + 1)) (m.cpr1 i)
    simp only [store, load, hlow, hhigh, Function.update_eq_self]
  | _ => rfl

theorem storeGuarded_taken (m : Mach) {w : ℕ} (p : StatePtr w) (v : BitVec w) :
    m.storeGuarded (some true) p v = m.storeGuarded none p v := rfl

theorem storeGuarded_squashed (m : Mach) {w : ℕ} (p : StatePtr w) (v : BitVec w) :
    m.storeGuarded (some false) p v = m := m.store_load p

theorem storeMem_taken (m : Mach) (ea : BitVec 64) (n : ℕ) (v : BitVec (8 * n)) :
    m.storeMem (some true) ea n v = m.storeMem none ea n v := rfl

theorem storeMem_squashed (m : Mach) (ea : BitVec 64) {n : ℕ} (hn : n ≤ 8) (v : BitVec (8 * n)) :
    Squashed m (m.storeMem (some false) ea n v) := by
  refine ⟨rfl, rfl, rfl, rfl, rfl, fun a ha => ?_⟩
  have hpa : (guarded (some false) (physAddr ea) bitbucketPa).toNat = 0x00700b00 := rfl
  simp only [storeMem, storeBytes, hpa]
  rw [if_neg (by omega)]

end Mach

namespace Emit

theorem predicated_setGPR (r : BitVec 5) (v : Mach → BitVec 64) :
    Predicated fun pred m => m.setGPR pred r (v m) where
  taken m := m.setGPR_taken r (v m)
  squashed m := by
    simp only [Mach.setGPR_squashed]
    exact .refl m

theorem predicated_storeGuarded {w : ℕ} (p : StatePtr w) (v : Mach → BitVec w) :
    Predicated fun pred m => m.storeGuarded pred p (v m) where
  taken m := m.storeGuarded_taken p (v m)
  squashed m := by
    simp only [Mach.storeGuarded_squashed]
    exact .refl m

theorem predicated_storeMem {n : ℕ} (hn : n ≤ 8) (ea : Mach → BitVec 64)
    (v : Mach → BitVec (8 * n)) : Predicated fun pred m => m.storeMem pred (ea m) n (v m) where
  taken m := m.storeMem_taken (ea m) n (v m)
  squashed m := m.storeMem_squashed (ea m) hn (v m)

/-- Two guarded stores, of values that were read before either. -/
theorem predicated_store₂ {w w' : ℕ} (p : StatePtr w) (q : StatePtr w') (u : Mach → BitVec w)
    (v : Mach → BitVec w') :
    Predicated fun pred m => (m.storeGuarded pred p (u m)).storeGuarded pred q (v m) where
  taken m := rfl
  squashed m := by
    simp only [Mach.storeGuarded_squashed]
    exact .refl m

theorem Effect.predicated {insn : Word} {f : Emit} (hf : Effect insn f) : f.Predicated := by
  cases hf with
  | reg r v => exact predicated_setGPR r v
  | state p v => exact predicated_storeGuarded p v
  | state₂ p q u v => exact predicated_store₂ p q u v
  | mem hn v => exact predicated_storeMem hn _ v

end Emit

/-- Whatever `emitOne` accepts does, as the slot of a branch-likely, what it does without the
branch where that is taken, and nothing but a store to the scratch word where it is not. -/
theorem emitOne_predicated {fp : FpUnit} {insn : Word} {f : Emit} (h : emitOne fp insn = some f)
    (m : Mach) : f (some true) m = f none m ∧ Squashed m (f (some false) m) := by
  have hf : f.Predicated := (Emit.effect_emitOne h).predicated
  exact ⟨hf.taken m, hf.squashed m⟩

/-- `sw $2, 0($3)` -/
theorem emitOne_predicated_sw : ∃ f, emitOne FpUnit.zero 0xac620000 = some f ∧
    (f (some true) Mach.zero = f none Mach.zero ∧
      Squashed Mach.zero (f (some false) Mach.zero)) := by
  have hsw : (emitOne FpUnit.zero 0xac620000).isSome := rfl
  obtain ⟨f, hf⟩ := Option.isSome_iff_exists.mp hsw
  exact ⟨f, hf, emitOne_predicated hf Mach.zero⟩

end RspBt.R4300
