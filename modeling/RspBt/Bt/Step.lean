import RspBt.Rsp.Effect
import RspBt.Bt.AgreeMem
import RspBt.Bt.Closure

namespace RspBt

open Lib

namespace RspInsn

/-- Where a transfer goes, decided before its slot runs. -/
def successor (i : RspInsn) (f : Frame) : Word :=
  match i.cls with
  | .branch _ => if i.condition f then i.tAddr else i.link
  | .jr | .jalr => f.getGPR i.inst.rs &&& 0xffc
  | _ => i.tAddr

/-- The words that decode to a transfer. -/
theorem decodeClass_control {w addr : Word} {cls : InsnClass} (hcls : decodeClass w = some cls)
    (hc : (⟨cls, w, addr⟩ : RspInsn).isControl) :
    (w.op = 0 ∧ (w.fn = 8 ∧ cls = .jr ∨ w.fn = 9 ∧ cls = .jalr)) ∨
    (w.op = 1 ∧ (w.rt = 0 ∧ cls = .branch .bltz ∨ w.rt = 1 ∧ cls = .branch .bgez)) ∨
    (w.op = 2 ∧ cls = .j) ∨ (w.op = 3 ∧ cls = .jal) ∨ (w.op = 4 ∧ cls = .branch .beq) ∨
    (w.op = 5 ∧ cls = .branch .bne) ∨ (w.op = 6 ∧ cls = .branch .blez) ∨
    (w.op = 7 ∧ cls = .branch .bgtz) := by
  unfold decodeClass at hcls
  split at hcls
  all_goals rename_i hop
  case h_1 =>
    unfold decodeSpecial at hcls
    split at hcls
    case h_7 hfn => exact .inl ⟨hop, .inl ⟨hfn, (Option.some.inj hcls).symm⟩⟩
    case h_8 hfn => exact .inl ⟨hop, .inr ⟨hfn, (Option.some.inj hcls).symm⟩⟩
    case h_20 => cases hcls
    all_goals
      obtain rfl := Option.some.inj hcls
      cases hc
  case h_2 =>
    split_ifs at hcls with h1 h2
    · exact .inr (.inl ⟨hop, .inl ⟨h1, (Option.some.inj hcls).symm⟩⟩)
    · exact .inr (.inl ⟨hop, .inr ⟨h2, (Option.some.inj hcls).symm⟩⟩)
  case h_3 | h_4 | h_5 | h_6 | h_7 | h_8 =>
    obtain rfl := Option.some.inj hcls
    simp [hop]
  case h_17 =>
    split_ifs at hcls <;> (obtain rfl := Option.some.inj hcls; cases hc)
  case h_18 =>
    split_ifs at hcls
    · obtain rfl := Option.some.inj hcls
      cases hc
    · obtain rfl := Option.some.inj hcls
      cases hc
    · obtain ⟨o, ho, rfl⟩ := Option.map_eq_some_iff.mp hcls
      cases hc
  case h_27 | h_28 =>
    obtain ⟨o, ho, rfl⟩ := Option.map_eq_some_iff.mp hcls
    cases hc
  case h_29 => cases hcls
  all_goals
    obtain rfl := Option.some.inj hcls
    cases hc

theorem decodeClass_break {w : Word} (h : decodeClass w = some .break_) : w.op = 0 ∧ w.fn = 0x0d := by
  unfold decodeClass at h
  split at h
  all_goals rename_i hop
  case h_1 =>
    unfold decodeSpecial at h
    split at h
    case h_9 hfn => exact ⟨hop, hfn⟩
    all_goals cases h
  case h_2 | h_17 => split_ifs at h <;> cases h
  case h_18 =>
    split_ifs at h
    · cases h
    · cases h
    · obtain ⟨o, -, ho⟩ := Option.map_eq_some_iff.mp h
      cases ho
  case h_27 | h_28 =>
    obtain ⟨o, -, ho⟩ := Option.map_eq_some_iff.mp h
    cases ho
  all_goals cases h

theorem switch_of_break {w : Word} (h : decodeClass w = some .break_) (s : Rsp) (nextPc : Word) :
    s.switch nextPc w = some ⟨s, (nextPc + 4) &&& 0xffc, true⟩ := by
  obtain ⟨hop, hfn⟩ := decodeClass_break h
  unfold Rsp.switch
  simp only [hop, hfn]
  rfl

/-- The interpreter's switch on a transfer: the link is stored, and `after` is the successor. -/
theorem switch_of_transfer {w addr : Word} {i : RspInsn} (hd : decode w addr = some i)
    (hc : i.isControl) {f : Frame} (h0 : f.c.r 0 = 0) :
    ∃ s', f.spill.switch ((addr + 4) &&& 0xffc) w = some ⟨s', i.successor f, false⟩ ∧
      s'.zeroR0 = (i.storeLink f).spill := by
  obtain ⟨cls, hcls, rfl⟩ := Option.map_eq_some_iff.mp hd
  have hlink : ((addr + 4) &&& 0xffc) + 4 &&& 0xffc = (addr + 8) &&& 0xffc := by
    rw [Word.and_ffc_add _ _ rfl, BitVec.add_assoc]
    rfl
  have htgt (o : IBranchTypeInsn) : (⟨.branch o, w, addr⟩ : RspInsn).tAddr =
      (((addr + 4) &&& 0xffc) + w.simm <<< 2) &&& 0xffc := by
    refine (Word.and_ffc_add _ _ ?_).symm
    rw [BitVec.toNat_shiftLeft, Nat.shiftLeft_eq]
    omega
  -- the translator tests `bgez` by the sign, the interpreter by comparison
  have hnlt : (!(f.getGPR w.rs).slt 0) = (0 : Word).sle (f.getGPR w.rs) := by
    rw [BitVec.sle_eq_not_slt]
  have hz : f.spill.zeroR0 = f.spill := Frame.spill_zeroR0 h0
  unfold Rsp.switch
  simp only [hlink, Frame.spill_r h0]
  obtain ⟨hop, ⟨hfn, rfl⟩ | ⟨hfn, rfl⟩⟩ | ⟨hop, ⟨hrt, rfl⟩ | ⟨hrt, rfl⟩⟩ | ⟨hop, rfl⟩ | ⟨hop, rfl⟩ |
    ⟨hop, rfl⟩ | ⟨hop, rfl⟩ | ⟨hop, rfl⟩ | ⟨hop, rfl⟩ := decodeClass_control hcls hc
  · rw [hop, hfn]
    exact ⟨_, rfl, hz⟩
  · rw [hop, hfn]
    exact ⟨_, rfl, (Frame.spill_setGPR h0 _ _).symm⟩
  · refine ⟨f.spill, ?_, hz⟩
    simp only [hop, hrt, successor, htgt]
    rfl
  · refine ⟨f.spill, ?_, hz⟩
    simp only [hop, hrt, successor, htgt, condition, IBranchTypeInsn.condition, ← hnlt]
    rfl
  · rw [hop]
    exact ⟨_, rfl, hz⟩
  · rw [hop]
    exact ⟨_, rfl, (Frame.spill_setGPR h0 _ _).symm⟩
  all_goals
    refine ⟨f.spill, ?_, hz⟩
    simp only [hop, successor, htgt]
    rfl

/-- Only an `mtc0` that replaced instruction memory leaves in the middle of a block. -/
theorem exit_of_generateIR {i : RspInsn} {f f' : Frame} {pc : Word}
    (h : i.generateIR f = .exit pc f') :
    i.cls = .mtc0 ∧ pc = (i.addr + 4) &&& 0xffc ∧ f'.spill.imemGen ≠ f.spill.imemGen := by
  obtain ⟨cls, w, addr⟩ := i
  cases cls
  case mtc0 =>
    simp only [generateIR, Frame.mtc0IR, Frame.rspbtMtc0] at h
    cases hm : f.c.mtc0 w.rd (f.getGPR w.rt) with
    | none => simp only [hm, Option.map_none] at h; cases h
    | some c =>
      simp only [hm, Option.map_some] at h
      split_ifs at h with hch
      injection h with h1 h2
      subst h1 h2
      exact ⟨rfl, rfl, bne_iff_ne.mp hch⟩
  case mfc0 =>
    simp only [generateIR] at h
    cases hm : f.c.mfc0 w.rd <;> simp only [hm] at h <;> cases h
  case vecMem o =>
    simp only [generateIR] at h
    cases hm : f.vecMemIR w o <;> simp only [hm] at h <;> cases h
  all_goals cases h

/-- Where the interpreter completes a plain instruction and leaves the image alone, the IR
goes on in the block, with the same machine. -/
theorem cont_of_straight {w addr : Word} {i : RspInsn} (hd : decode w addr = some i)
    (hs : i.isStraight) {f : Frame} (h0 : f.c.r 0 = 0) {s' : Rsp}
    (hst : f.spill.straight w = some s') (hg : s'.imemGen = f.spill.imemGen) :
    ∃ f', i.generateIR f = .cont f' ∧ f'.spill = s'.zeroR0 ∧ f'.c.r 0 = 0 ∧
      f'.spill.imem = f.spill.imem := by
  have hspill := spill_generateIR hd hs h0
  rw [hst, Option.map_some] at hspill
  cases hir : i.generateIR f with
  | die => rw [hir] at hspill; cases hspill
  | exit pc f' =>
    rw [hir] at hspill
    have heq : f'.spill = s'.zeroR0 := Option.some.inj hspill
    have hne := (exit_of_generateIR hir).2.2
    rw [heq] at hne
    exact absurd hg hne
  | cont f' =>
    rw [hir] at hspill
    have heq : f'.spill = s'.zeroR0 := Option.some.inj hspill
    refine ⟨f', rfl, heq, ?_, ?_⟩
    · rw [← Frame.spill_r_zero, heq]
      simp only [Rsp.zeroR0, Rsp.setR, Function.update_self]
    · rw [heq]
      exact (Rsp.keepsImem_straight hst hg).imem

end RspInsn

namespace RspT

def cfg (s : Rsp) (pc nextPc : Word) (n : BitVec 64) : RspT × Word :=
  ({ core := s, pc := pc, halted := false, nInsns := n }, nextPc)

def InBudget (n : BitVec 64) : Prop := ¬ 1 <<< 40 < n + 1

theorem turn_cfg (s : Rsp) (pc nextPc : Word) (n : BitVec 64) :
    turn (cfg s pc nextPc n) = (s.switch nextPc (fetch s.imem pc)).bind fun fl =>
      if 1 <<< 40 < n + 1 then none
      else some (.inl ({ core := fl.s.zeroR0, pc := nextPc, halted := fl.halted, nInsns := n + 1 },
        fl.after)) := by
  cases h : s.switch nextPc (fetch s.imem pc) with
  | none =>
    simp only [turn, cfg, h]
    rfl
  | some fl =>
    simp only [turn, cfg, h]
    rfl

theorem turn_of_switch {s : Rsp} {pc nextPc : Word} {n : BitVec 64} {fl : Rsp.Flow}
    (h : s.switch nextPc (fetch s.imem pc) = some fl) (hn : InBudget n) :
    turn (cfg s pc nextPc n) = some (.inl
      ({ core := fl.s.zeroR0, pc := nextPc, halted := fl.halted, nInsns := n + 1 }, fl.after)) := by
  rw [turn_cfg, h, Option.bind_some, if_neg hn]

theorem loop_cfg {m : ℕ} {s : Rsp} {pc nextPc : Word} {n : BitVec 64} {c' : RspT}
    (h : loop turn m (cfg s pc nextPc n) = some c') :
    ∃ k fl, m = k + 1 ∧ InBudget n ∧ s.switch nextPc (fetch s.imem pc) = some fl ∧
      loop turn k ({ core := fl.s.zeroR0, pc := nextPc, halted := fl.halted, nInsns := n + 1 },
        fl.after) = some c' := by
  obtain ⟨k, rfl, ht⟩ := loop_cases h
  rw [turn_cfg] at ht
  cases hsw : s.switch nextPc (fetch s.imem pc) with
  | none =>
    rw [hsw] at ht
    rcases ht with ht | ⟨st, ht, -⟩ <;> cases ht
  | some fl =>
    rw [hsw, Option.bind_some] at ht
    by_cases hn : 1 <<< 40 < n + 1
    · rw [if_pos hn] at ht
      rcases ht with ht | ⟨st, ht, -⟩ <;> cases ht
    · rw [if_neg hn] at ht
      rcases ht with ht | ⟨st, ht, hl⟩
      · cases ht
      · obtain rfl := Sum.inl.inj (Option.some.inj ht)
        exact ⟨k, fl, rfl, hn, rfl, hl⟩

end RspT

end RspBt
