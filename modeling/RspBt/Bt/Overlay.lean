import RspBt.Bt.Memo

namespace RspBt

open Lib

/-- An `mtc0` in the image: by itself, or in the slot of the transfer `owner` at `a`. -/
inductive Image.Mtc0At (imem : Image) (a : Word) : Option RspInsn → RspInsn → Prop
  | plain {d : RspInsn} (h : imem.StraightAt a d) (hd : d.cls = .mtc0) : Mtc0At imem a none d
  | slot {i d : RspInsn} (h : imem.TransferAt a i d) (hd : d.cls = .mtc0) : Mtc0At imem a (some i) d

def RspInsn.Overlays (d : RspInsn) (f : Frame) : Prop :=
  ∃ c, f.c.mtc0 d.inst.rd (f.getGPR d.inst.rt) = some c ∧ c.imemGen ≠ f.c.imemGen

def RspInsn.slotFrame (owner : Option RspInsn) (f : Frame) : Frame :=
  match owner with
  | none => f
  | some i => i.storeLink f

def RspInsn.slotTurns (owner : Option RspInsn) : ℕ :=
  match owner with
  | none => 1
  | some _ => 2

namespace RspT

def after : ℕ → RspT × Word → Option (RspT × Word)
  | 0, st => some st
  | k + 1, st =>
    match turn st with
    | some (.inl st) => after k st
    | _ => none

theorem after_cfg {s s' : Rsp} {pc nextPc aft : Word} {n : BitVec 64}
    (h : s.switch nextPc (fetch s.imem pc) = some ⟨s', aft, false⟩) (k : ℕ) (st : RspT × Word) :
    after (k + 1) (cfg s pc nextPc n) = some st ↔
      InBudget n ∧ after k (cfg s'.zeroR0 nextPc aft (n + 1)) = some st := by
  by_cases hn : InBudget n
  · rw [after, turn_of_switch h hn]
    exact (and_iff_right hn).symm
  · have hg : 1 <<< 40 < n + 1 := not_not.mp hn
    rw [after, turn_cfg, h, Option.bind_some, if_pos hg]
    constructor
    · intro hst
      cases hst
    · exact fun hst => absurd hst.1 hn

end RspT

/-- A block leaves with the machine, and for the address, that the interpreter goes on from
after `k` turns: a clean position, outside every slot. -/
def Out.HandsOver (o : Out) (k : ℕ) (s : Rsp) (a : Word) : Prop :=
  ∃ pc f, o = .ret pc f ∧ ∀ n st,
    RspT.after k (RspT.cfg s (a &&& 0xffc) ((a + 4) &&& 0xffc) n) = some st →
      st.1.core = f.spill ∧ st.1.pc = pc ∧ st.2 = (pc + 4) &&& 0xffc

section Overlay

variable {imem : Image} {w : Walk} {cx : ℕ} {a : Word} {is : List RspInsn} {t : Term}
  {owner : Option RspInsn} {d : RspInsn} {f : Frame}

theorem RspInsn.generateIR_overlay (hd : d.cls = .mtc0) (h : d.Overlays f) :
    ∃ f', d.generateIR f = .exit ((d.addr + 4) &&& 0xffc) f' := by
  obtain ⟨c, hc, hg⟩ := h
  refine ⟨{ f with c := c }, ?_⟩
  simp only [generateIR, hd, Frame.mtc0IR, Frame.rspbtMtc0, hc, Option.map_some, bne_iff_ne.mpr hg,
    if_true]

theorem RspInsn.switch_of_exit (hs : imem.StraightAt a d) (hf : f.Live imem) {pc : Word} {f' : Frame}
    (hir : d.generateIR f = .exit pc f') (nextPc : Word) :
    ∃ s', f.spill.switch nextPc (fetch f.spill.imem a) = some ⟨s', (nextPc + 4) &&& 0xffc, false⟩ ∧
      s'.zeroR0 = f'.spill := by
  have hd := Image.decode_of_at hs.1
  have hsp := RspInsn.spill_generateIR hd hs.2 hf.r0
  rw [hir] at hsp
  obtain ⟨s', hst, hz⟩ := Option.map_eq_some_iff.mp hsp.symm
  exact ⟨s', by rw [hf.imem, RspInsn.switch_of_straight hd hs.2, hst, Option.map_some], hz⟩

theorem Emits.straight (he : Emits imem w cx a is t) (hs : imem.StraightAt a d) :
    ∃ js, is = d :: js := by
  cases he with
  | interp h =>
    rw [hs.translatable] at h
    cases h
  | halt h => exact absurd h hs.not_break
  | control h => exact absurd h hs.not_transfer
  | br h =>
    obtain rfl := Option.some.inj (hs.1.symm.trans h.1)
    exact ⟨_, rfl⟩
  | next h =>
    obtain rfl := Option.some.inj (hs.1.symm.trans h.1)
    exact ⟨_, rfl⟩

theorem Emits.transfer {i : RspInsn} (he : Emits imem w cx a is t) (ht : imem.TransferAt a i d) :
    is = [] ∧ i.controlIR d w.ctxs w.roots cx = some (w.ctxs, t) := by
  cases he with
  | interp h =>
    rw [ht.translatable] at h
    cases h
  | halt h => exact absurd ht h.not_transfer
  | control h hc =>
    obtain rfl := Option.some.inj (ht.1.symm.trans h.1)
    obtain rfl := Option.some.inj (ht.2.2.1.symm.trans h.2.2.1)
    exact ⟨rfl, hc⟩
  | br h => exact absurd ht h.not_transfer
  | next h => exact absurd ht h.not_transfer

/-- Translated code leaves for the word after the `mtc0`. -/
theorem Emits.exec_overlay (he : Emits imem w cx a is t) (hm : imem.Mtc0At a owner d)
    (hov : d.Overlays (RspInsn.slotFrame owner f)) :
    ∃ f', d.generateIR (RspInsn.slotFrame owner f) = .exit ((d.addr + 4) &&& 0xffc) f' ∧
      execBody is t f = .ret ((d.addr + 4) &&& 0xffc) f' := by
  cases hm with
  | plain hs hd =>
    obtain ⟨f', hir⟩ := RspInsn.generateIR_overlay hd hov
    obtain ⟨js, rfl⟩ := he.straight hs
    refine ⟨f', hir, ?_⟩
    rw [execBody, RspInsn.andThen, show d.generateIR f = _ from hir]
  | slot ht hd =>
    obtain ⟨f', hir⟩ := RspInsn.generateIR_overlay hd hov
    obtain ⟨rfl, hc⟩ := he.transfer ht
    refine ⟨f', hir, ?_⟩
    rw [execBody]
    rcases Term.exec_control hc f with ⟨key, -, -, hx⟩ | hx
    all_goals rw [hx, RspInsn.andThen, show d.generateIR (RspInsn.storeLink _ f) = _ from hir]

def RspInsn.slotSuccessor (owner : Option RspInsn) (a : Word) (f : Frame) : Word :=
  match owner with
  | none => (a + 4) &&& 0xffc
  | some i => i.successor f

/-- After the `mtc0` the interpreter has the machine the exit spills, and is at the real
successor, unless its runaway guard stopped it. -/
theorem Image.Mtc0At.after_overlay (hm : imem.Mtc0At a owner d) (hf : f.Live imem) {pc : Word}
    {f' : Frame} (hir : d.generateIR (RspInsn.slotFrame owner f) = .exit pc f') (n : BitVec 64) :
    ∃ l, ∀ st, RspT.after (RspInsn.slotTurns owner)
        (RspT.cfg f.spill (a &&& 0xffc) ((a + 4) &&& 0xffc) n) = some st ↔
      (RspT.InBudget n ∧ (owner.isSome → RspT.InBudget (n + 1))) ∧
        st = RspT.cfg f'.spill (RspInsn.slotSuccessor owner a f)
          ((RspInsn.slotSuccessor owner a f + 4) &&& 0xffc) l := by
  cases hm with
  | plain hs hd =>
    obtain ⟨s', hsw, hz⟩ := RspInsn.switch_of_exit (Walk.straightAt_mask.mpr hs) hf hir
      ((a + 4) &&& 0xffc)
    refine ⟨n + 1, fun st => ?_⟩
    rw [RspInsn.slotTurns, RspT.after_cfg hsw, hz, RspT.after, Option.some.injEq, eq_comm (a := st)]
    simp only [Option.isSome_none, Bool.false_eq_true, false_implies, and_true]
    rfl
  | slot ht hd =>
    rename_i i
    have hdec := Image.decode_of_at ht.1
    have hnext : ((a &&& 0xffc) + 4) &&& 0xffc = (a + 4) &&& 0xffc := Word.and_ffc_add a 4 rfl
    obtain ⟨s₁, hsw₁, hz₁⟩ := RspInsn.switch_of_transfer hdec ht.2.1 hf.r0
    have hfetch : fetch f.spill.imem (a &&& 0xffc) = fetch imem a := by
      rw [hf.imem, fetch_mask]
    rw [hnext, ← hfetch] at hsw₁
    have hslot : imem.StraightAt ((a + 4) &&& 0xffc) d := Walk.straightAt_mask.mpr ht.2.2
    obtain ⟨s₂, hsw₂, hz₂⟩ := RspInsn.switch_of_exit hslot (hf.storeLink i) hir (i.successor f)
    refine ⟨n + 1 + 1, fun st => ?_⟩
    rw [RspInsn.slotTurns, RspT.after_cfg hsw₁, hz₁, RspT.after_cfg hsw₂, hz₂, RspT.after,
      Option.some.injEq, eq_comm (a := st), and_assoc]
    simp only [Option.isSome_some, forall_const]
    rfl

/-- The state is always handed over; the address is when the `mtc0` stands alone, or the
transfer it belongs to goes on at the word after it. -/
theorem Emits.exec_handsOver (he : Emits imem w cx a is t) (hm : imem.Mtc0At a owner d)
    (hf : f.Live imem) (hov : d.Overlays (RspInsn.slotFrame owner f)) :
    (execBody is t f).HandsOver (RspInsn.slotTurns owner) f.spill a ↔
      RspInsn.slotSuccessor owner a f = (d.addr + 4) &&& 0xffc := by
  obtain ⟨f', hir, hx⟩ := he.exec_overlay hm hov
  rw [hx]
  constructor
  · rintro ⟨pc, f₁, hret, hst⟩
    obtain ⟨rfl, rfl⟩ := Out.ret.inj hret
    obtain ⟨l, hafter⟩ := hm.after_overlay hf hir 0
    have hyoung : RspT.InBudget 0 ∧ (owner.isSome → RspT.InBudget (0 + 1)) := by
      unfold RspT.InBudget
      refine ⟨by decide, fun _ => by decide⟩
    exact (hst 0 _ ((hafter _).mpr ⟨hyoung, rfl⟩)).2.1
  · intro hsucc
    refine ⟨_, _, rfl, ?_⟩
    intro n st hst
    obtain ⟨l, hafter⟩ := hm.after_overlay hf hir n
    obtain rfl := ((hafter st).mp hst).2
    exact ⟨rfl, hsucc, by rw [← hsucc]; rfl⟩

/-- An overlay is handed over where the interpreter goes on if and only if the `mtc0` is in no
slot, or the transfer falls to the word after its slot. -/
theorem Emits.handsOver_iff (he : Emits imem w cx a is t) (hm : imem.Mtc0At a owner d)
    (hf : f.Live imem) (hov : d.Overlays (RspInsn.slotFrame owner f)) :
    (execBody is t f).HandsOver (RspInsn.slotTurns owner) f.spill a ↔
      ∀ i ∈ owner, i.successor f = (a + 8) &&& 0xffc := by
  rw [he.exec_handsOver hm hf hov]
  cases hm with
  | plain hs hd =>
    have haddr := Image.at_addr hs.1
    rw [haddr, Word.and_ffc_add a 4 rfl]
    exact iff_of_true rfl fun i hi => by cases hi
  | slot ht hd =>
    have haddr := Image.at_addr ht.2.2.1
    have hlast : (d.addr + 4) &&& 0xffc = (a + 8) &&& 0xffc := by
      rw [haddr, Word.and_ffc_add (a + 4) 4 rfl, BitVec.add_assoc]
      rfl
    rw [hlast]
    constructor
    · intro hsucc i hi
      obtain rfl := Option.some.inj hi
      exact hsucc
    · exact fun h => h _ rfl

end Overlay

/-- `j 0x40` with `mtc0 $0, SP_RD_LEN` in its slot. -/
def overlayJump : RspInsn := ⟨.j, 0x08000010, 0⟩
def overlaySlot : RspInsn := ⟨.mtc0, 0x40801000, 4⟩

def overlayTask : Rsp :=
  { Rsp.withCode [0x08, 0x00, 0x00, 0x10, 0x40, 0x80, 0x10, 0x00] with spMemAddr := 0x1000 }

theorem mtc0At_overlayTask : overlayTask.imem.Mtc0At 0 (some overlayJump) overlaySlot :=
  .slot ⟨rfl, rfl, rfl, rfl⟩ rfl

theorem overlays_overlayTask : overlaySlot.Overlays (overlayJump.storeLink (Frame.enter overlayTask)) :=
  ⟨_, rfl, by decide⟩

theorem handsOver_iff_jump :
    (execBody [] (.jump overlayJump overlaySlot (0x40, 0)) (Frame.enter overlayTask)).HandsOver 2
        (Frame.enter overlayTask).spill 0 ↔
      ∀ i ∈ some overlayJump, i.successor (Frame.enter overlayTask) = (0 + 8) &&& 0xffc := by
  have hsite : overlayTask.imem.TransferAt 0 overlayJump overlaySlot := ⟨rfl, rfl, rfl, rfl⟩
  have hem : Emits overlayTask.imem (Walk.init []) 0 0 [] (.jump overlayJump overlaySlot (0x40, 0)) :=
    .control hsite rfl
  exact hem.handsOver_iff mtc0At_overlayTask ⟨rfl, rfl⟩ overlays_overlayTask

/-- The compiled block leaves for 8; the interpreter goes on at 0x40. -/
theorem not_handsOver_jump :
    ∃ N, ∀ n, N ≤ n → ∃ T b, compile overlayTask.imem n [0] = some T ∧
      T.blocks.lookup (0, 0) = some b ∧
      ¬ (b.exec (Frame.enter overlayTask)).HandsOver 2 overlayTask 0 := by
  refine ⟨compileBound, fun n hn => ?_⟩
  obtain ⟨T, w, hT, him, hc, hroots⟩ := compile_total overlayTask.imem [0] hn
  have hroot : (0 : Word) ∈ w.roots := hc.roots ▸ hroots 0 (List.mem_singleton_self _) rfl
  obtain ⟨b, hb, hem, -⟩ := hc.lookup (hc.done.led 0 hroot)
  refine ⟨T, b, hT, hb, ?_⟩
  have hspill : (Frame.enter overlayTask).spill = overlayTask := Frame.spill_enter overlayTask
  have hlive : (Frame.enter overlayTask).Live T.imem := ⟨rfl, by rw [hspill, him]⟩
  have hover := hem.exec_handsOver (him ▸ mtc0At_overlayTask) hlive overlays_overlayTask
  rw [hspill] at hover
  intro h
  exact absurd (hover.mp h) (by decide)

end RspBt
