import RspBt.R4300.Call
import RspBt.R4300.Program
import RspBt.R4300.Same

namespace RspBt.R4300

open Lib

def ramEnd : ℕ := 0x20000007

def Mach.withPast (m : Mach) (past : ℕ → Byte) : Mach :=
  { m with ram := fun a => if a < ramEnd then m.ram a else past a }

variable {m : Mach} {insn : Word} {past : ℕ → Byte} {w n : ℕ} {pred : Option Bool}

theorem withPast_self (m : Mach) : m.withPast m.ram = m := by
  simp only [Mach.withPast, ite_self]

theorem physAddr_lt (ea : BitVec 64) : (physAddr ea).toNat < 0x20000000 := by
  have hlow (x mask : Word) (hm : mask.toNat < 0x20000000) : (x &&& mask).toNat < 0x20000000 := by
    rw [BitVec.toNat_and]
    exact lt_of_le_of_lt Nat.and_le_right hm
  unfold physAddr
  simp only
  split_ifs
  · exact hlow _ _ (by decide)
  · exact hlow _ _ (by decide)

section

variable (m past)

@[simp] theorem getGPR_withPast (r : BitVec 5) : (m.withPast past).getGPR r = m.getGPR r := rfl

@[simp] theorem load_withPast (p : StatePtr w) : (m.withPast past).load p = m.load p := by
  cases p <;> rfl

@[simp] theorem effAddr_withPast (insn : Word) :
    (m.withPast past).effAddr insn = m.effAddr insn := rfl

@[simp] theorem setGPR_withPast (pred : Option Bool) (r : BitVec 5) (v : BitVec 64) :
    (m.withPast past).setGPR pred r v = (m.setGPR pred r v).withPast past := by
  unfold Mach.setGPR
  split_ifs <;> rfl

@[simp] theorem store_withPast (p : StatePtr w) (v : BitVec w) :
    (m.withPast past).store p v = (m.store p v).withPast past := by
  cases p <;> rfl

@[simp] theorem storeGuarded_withPast (pred : Option Bool) (p : StatePtr w) (v : BitVec w) :
    (m.withPast past).storeGuarded pred p v = (m.storeGuarded pred p v).withPast past := by
  simp only [Mach.storeGuarded, load_withPast, store_withPast]

theorem loadMem_withPast (ea : BitVec 64) (hn : n ≤ 8) :
    (m.withPast past).loadMem ea n = m.loadMem ea n := by
  have hea := physAddr_lt ea
  refine Same.loadBytes fun x _ hx => if_pos ?_
  unfold ramEnd
  omega

theorem storeMem_withPast (pred : Option Bool) (ea : BitVec 64) (hn : n ≤ 8)
    (v : BitVec (8 * n)) :
    (m.withPast past).storeMem pred ea n v = (m.storeMem pred ea n v).withPast past := by
  have hpa : (guarded pred (physAddr ea) bitbucketPa).toNat < 0x20000000 := by
    cases pred with
    | none => exact physAddr_lt ea
    | some p =>
      cases p with
      | false => exact (by decide : bitbucketPa.toNat < 0x20000000)
      | true => exact physAddr_lt ea
  have hram : storeBytes (m.withPast past).ram (guarded pred (physAddr ea) bitbucketPa).toNat n v =
      ((m.storeMem pred ea n v).withPast past).ram := by
    funext x
    simp only [Mach.withPast, Mach.storeMem, storeBytes, ramEnd]
    split_ifs with hin hx hx
    · rfl
    · omega
    · exact if_pos hx
    · exact if_neg hx
  simp only [Mach.storeMem, hram]
  rfl

end

theorem emitArith_withPast {fp : Fp w} {ptr : BitVec 5 → StatePtr w} {f : Emit}
    (h : emitArith fp ptr insn = some f) (pred : Option Bool) (m : Mach) (past : ℕ → Byte) :
    f pred (m.withPast past) = (f pred m).withPast past := by
  unfold emitArith at h
  simp only at h
  split at h
  case h_13 => cases h
  all_goals
    obtain rfl := Option.some.inj h
    simp only [load_withPast, storeGuarded_withPast]

theorem emitCop1_withPast {fp : FpUnit} {f : Emit} (h : emitCop1 fp insn = some f)
    (pred : Option Bool) (m : Mach) (past : ℕ → Byte) :
    f pred (m.withPast past) = (f pred m).withPast past := by
  unfold emitCop1 at h
  split at h
  · obtain rfl := Option.some.inj h
    simp only [load_withPast, setGPR_withPast]
  · obtain rfl := Option.some.inj h
    simp only [getGPR_withPast, storeGuarded_withPast]
  · split_ifs at h
    · obtain rfl := Option.some.inj h
      simp only [load_withPast, storeGuarded_withPast]
    · exact emitArith_withPast h pred m past
  · split_ifs at h
    · obtain rfl := Option.some.inj h
      simp only [load_withPast, storeGuarded_withPast]
    · exact emitArith_withPast h pred m past
  · split at h
    case h_3 => cases h
    all_goals
      obtain rfl := Option.some.inj h
      simp only [load_withPast, storeGuarded_withPast]
  · cases h

theorem emitDiv_withPast (insn : Word) (sgn : Bool) (pred : Option Bool) (m : Mach)
    (past : ℕ → Byte) :
    emitDiv insn sgn pred (m.withPast past) = (emitDiv insn sgn pred m).withPast past := by
  unfold emitDiv
  simp only [getGPR_withPast, load_withPast, storeGuarded_withPast]
  rfl

theorem emitSpecial_withPast {f : Emit} (h : emitSpecial insn = some f) (pred : Option Bool)
    (m : Mach) (past : ℕ → Byte) : f pred (m.withPast past) = (f pred m).withPast past := by
  unfold emitSpecial at h
  simp only at h
  split at h
  case h_17 | h_18 =>
    obtain rfl := Option.some.inj h
    simp only [emitMult, getGPR_withPast, storeGuarded_withPast]
  case h_19 | h_20 =>
    obtain rfl := Option.some.inj h
    exact emitDiv_withPast insn _ pred m past
  case h_23 => cases h
  all_goals
    obtain rfl := Option.some.inj h
    simp only [getGPR_withPast, load_withPast, storeGuarded_withPast, setGPR_withPast]

theorem emitOne_withPast {fp : FpUnit} {f : Emit} (h : emitOne fp insn = some f)
    (pred : Option Bool) (m : Mach) (past : ℕ → Byte) :
    f pred (m.withPast past) = (f pred m).withPast past := by
  unfold emitOne at h
  simp only at h
  split at h
  case h_1 => exact emitSpecial_withPast h pred m past
  case h_24 => exact emitCop1_withPast h pred m past
  case h_25 => cases h
  case h_16 | h_17 | h_18 | h_19 | h_22 | h_23 =>
    obtain rfl := Option.some.inj h
    simp only [getGPR_withPast, load_withPast, effAddr_withPast]
    exact storeMem_withPast m past pred _ (by decide) _
  case h_20 | h_21 =>
    obtain rfl := Option.some.inj h
    simp only [effAddr_withPast, storeGuarded_withPast]
    rw [loadMem_withPast m past _ (by decide)]
  case h_9 | h_10 | h_11 | h_12 | h_13 | h_14 | h_15 =>
    obtain rfl := Option.some.inj h
    simp only [effAddr_withPast, setGPR_withPast]
    rw [loadMem_withPast m past _ (by decide)]
  all_goals
    obtain rfl := Option.some.inj h
    simp only [getGPR_withPast, setGPR_withPast]

def Frame.withPast (f : Frame) (past : ℕ → Byte) : Frame := { f with m := f.m.withPast past }

def Next.withPast (past : ℕ → Byte) : Next → Next
  | .word f => .word (f.withPast past)
  | .branch f a => .branch (f.withPast past) a
  | .leave f r => .leave (f.withPast past) r
  | .call f direct target link tail => .call (f.withPast past) direct target link tail

def Next.ram : Next → ℕ → Byte
  | .word f | .branch f _ | .leave f _ | .call f .. => f.m.ram

def Config.withPast (past : ℕ → Byte) : Config → Config
  | .inside b pc f => .inside b pc (f.withPast past)
  | .leaving f r => .leaving (f.withPast past) r
  | .returned s r => .returned (s.withPast past) r

def Config.ram : Config → ℕ → Byte
  | .inside _ _ f | .leaving f _ => f.m.ram
  | .returned s _ => s.ram

variable {t : Emitter} {gf : Func} {b : Block} {pc : Word} {f f' : Frame} {x y : Config} {c : Calls}

theorem Next.ram_withPast (past : ℕ → Byte) (o : Next) {a : ℕ} (ha : ramEnd ≤ a) :
    (o.withPast past).ram a = past a := by
  cases o <;> exact if_neg (Nat.not_lt.mpr ha)

theorem branchCond_withPast (insn : Word) (m : Mach) (past : ℕ → Byte) :
    branchCond insn (m.withPast past) = branchCond insn m := rfl

namespace Emitter

theorem emitLeave_withPast (t : Emitter) (gf : Func) (b : Block) (pc insn target : Word) (cond : Bool)
    (f : Frame) (past : ℕ → Byte) : t.emitLeave gf b pc insn target cond (f.withPast past) =
      (t.emitLeave gf b pc insn target cond f).withPast past := by
  unfold emitLeave
  simp only
  split_ifs <;> rfl

theorem emitSlot_withPast {slot : Word} {code : Emit} (h : t.emitSlot slot = some code)
    (pred : Option Bool) (m : Mach) (past : ℕ → Byte) :
    code pred (m.withPast past) = (code pred m).withPast past := by
  unfold emitSlot at h
  split_ifs at h
  · obtain rfl := Option.some.inj h
    rfl
  · exact emitOne_withPast h pred m past

theorem emitCtl_withPast (t : Emitter) (gf : Func) (b : Block) (pc insn : Word) (f : Frame)
    (past : ℕ → Byte) :
    t.emitCtl gf b pc insn (f.withPast past) = (t.emitCtl gf b pc insn f).withPast past := by
  have hlink : (if isLink insn then (f.withPast past).link (pc + 8) else f.withPast past) =
      (if isLink insn then f.link (pc + 8) else f).withPast past := by
    split_ifs
    · exact congrArg (fun m => Frame.mk m f.saved) (setGPR_withPast f.m past none 31 _)
    · rfl
  have hcond : branchCond insn (f.withPast past).m = branchCond insn f.m :=
    branchCond_withPast insn f.m past
  have hgpr : (f.withPast past).m.getGPR insn.rs = f.m.getGPR insn.rs := rfl
  unfold emitCtl
  cases hslot : t.cfg.read (pc + 4) with
  | none => rfl
  | some slot =>
    simp only [hlink, hcond, hgpr]
    by_cases hop : insn.op = 0x01 ∧ 3 < insn.rt
    · simp only [if_pos hop]
      rfl
    · simp only [if_neg hop]
      cases hcode : t.emitSlot slot with
      | none => rfl
      | some code =>
        have hrun (f : Frame) (pred : Option Bool) :
            (f.withPast past).run code pred = (f.run code pred).withPast past :=
          congrArg (fun m => Frame.mk m f.saved) (emitSlot_withPast hcode pred f.m past)
        simp only [hrun]
        exact emitLeave_withPast ..

theorem emitWord_withPast (t : Emitter) (gf : Func) (b : Block) (pc : Word) (f : Frame)
    (past : ℕ → Byte) :
    t.emitWord gf b pc (f.withPast past) = (t.emitWord gf b pc f).withPast past := by
  unfold emitWord
  by_cases hend : pc < b.end_
  · simp only [if_pos hend]
    cases hr : t.cfg.read pc with
    | none => rfl
    | some insn =>
      by_cases hctl : isCtl insn = true
      · simp only [if_pos hctl]
        exact emitCtl_withPast ..
      · simp only [if_neg hctl]
        cases hone : emitOne t.fp insn with
        | none => rfl
        | some code =>
          exact congrArg (fun m => Next.word ⟨m, f.saved⟩) (emitOne_withPast hone none f.m past)
  · simp only [if_neg hend]
    rfl

theorem emitWord_ram (t : Emitter) (gf : Func) (b : Block) (pc : Word) (f : Frame) {a : ℕ}
    (ha : ramEnd ≤ a) : (t.emitWord gf b pc f).ram a = f.m.ram a := by
  have hself : f.withPast f.m.ram = f := congrArg (fun m => Frame.mk m f.saved) (withPast_self f.m)
  have heq := t.emitWord_withPast gf b pc f f.m.ram
  rw [hself] at heq
  rw [heq]
  exact Next.ram_withPast _ _ ha

end Emitter

theorem blockFor_withPast (gf : Func) (a : Word) (f : Frame) (past : ℕ → Byte) :
    gf.blockFor a (f.withPast past) = (gf.blockFor a f).withPast past := by
  unfold Func.blockFor
  cases gf.blocks.lookup a <;> rfl

theorem blockFor_ram (gf : Func) (a : Word) (f : Frame) : (gf.blockFor a f).ram = f.m.ram := by
  unfold Func.blockFor
  cases gf.blocks.lookup a <;> rfl

/-- What is called neither tells what lies past the end nor changes it. -/
structure Calls.Confined (c : Calls) : Prop where
  does : ∀ direct target link s s', c.Does direct target link s s' → ∀ past,
    c.Does direct target link (s.withPast past) (s'.withPast past)
  keeps : ∀ direct target link s s', c.Does direct target link s s' → ∀ a, ramEnd ≤ a →
    s'.ram a = s.ram a

theorem Step.withPast (hc : c.Confined) (h : Step t gf c x y) (past : ℕ → Byte) :
    Step t gf c (x.withPast past) (y.withPast past) := by
  have hnext {b : Block} {pc : Word} {f : Frame} {o : Next} (hw : t.emitWord gf b pc f = o) :
      t.emitWord gf b pc (f.withPast past) = o.withPast past := by
    rw [t.emitWord_withPast, hw]
  cases h with
  | word hw => exact .word (hnext hw)
  | branch hw =>
    rw [← blockFor_withPast]
    exact .branch (hnext hw)
  | leave hw => exact .leave (hnext hw)
  | call hw hd =>
    rw [← blockFor_withPast]
    exact .call (hnext hw) (hc.does _ _ _ _ _ hd past)
  | tailCall hw hd => exact .tailCall (hnext hw) (hc.does _ _ _ _ _ hd past)
  | exit => exact .exit

theorem Step.keeps (hc : c.Confined) (h : Step t gf c x y) {a : ℕ} (ha : ramEnd ≤ a) :
    y.ram a = x.ram a := by
  have hnext {b : Block} {pc : Word} {f : Frame} {o : Next} (hw : t.emitWord gf b pc f = o) :
      o.ram a = f.m.ram a := by
    rw [← hw]
    exact t.emitWord_ram gf b pc f ha
  cases h with
  | word hw => exact hnext hw
  | branch hw =>
    rw [blockFor_ram]
    exact hnext hw
  | leave hw => exact hnext hw
  | call hw hd =>
    rw [blockFor_ram]
    exact (hc.keeps _ _ _ _ _ hd a ha).trans (hnext hw)
  | tailCall hw hd => exact (hc.keeps _ _ _ _ _ hd a ha).trans (hnext hw)
  | exit => rfl

def StateT.withPast (s : StateT) (past : ℕ → Byte) : StateT := { s with m := s.m.withPast past }

/-- The interpreter neither tells what lies past the end nor changes it. -/
def Guest.Confined (g : Guest) : Prop :=
  ∀ q past, g.execMips (q.withPast past) = (g.execMips q).withPast past

variable {g : Guest} {e : Env} {fp : FpUnit} {rest : StateT → StateT} {q : StateT}

theorem linked_withPast (pc insn : Word) (m : Mach) (past : ℕ → Byte) :
    linked pc insn (m.withPast past) = (linked pc insn m).withPast past := by
  unfold linked
  split_ifs
  · exact setGPR_withPast m past none 31 _
  · rfl

theorem execCtl_withPast (pc insn : Word) {code : Emit} {slot : Word}
    (hcode : emitOne fp slot = some code) (m : Mach) (past : ℕ → Byte) :
    execCtl pc insn code (m.withPast past) = (execCtl pc insn code m).withPast past := by
  have hcond : branchCond insn (m.withPast past) = branchCond insn m := rfl
  unfold execCtl
  rw [hcond]
  refine congrArg₂ StateT.mk ?_ rfl
  split_ifs
  · exact linked_withPast pc insn m past
  · rw [linked_withPast]
    exact emitOne_withPast hcode none _ past

/-- An interpreter that does what the translator emits is confined where its own words are. -/
theorem guest_confined (e : Env) (fp : FpUnit)
    (hrest : ∀ q past, rest (q.withPast past) = (rest q).withPast past) :
    (e.guest fp rest).Confined := by
  intro q past
  have hpc : (q.withPast past).pc = q.pc := rfl
  simp only [Env.guest, hpc]
  cases hr : e.read (lo32 q.pc) with
  | none => exact hrest q past
  | some insn =>
    simp only
    by_cases hctl : isCtl insn = true
    · simp only [if_pos hctl]
      cases hslot : e.read (lo32 q.pc + 4) with
      | none => exact hrest q past
      | some slot =>
        simp only
        by_cases hop : insn.op = 0x01 ∧ 3 < insn.rt
        · simp only [if_pos hop]
          exact hrest q past
        · simp only [if_neg hop]
          cases hcode : emitOne fp slot with
          | none => exact hrest q past
          | some code => exact execCtl_withPast _ insn hcode q.m past
    · simp only [if_neg hctl]
      cases hcode : emitOne fp insn with
      | none => exact hrest q past
      | some code => exact congrArg₂ StateT.mk (emitOne_withPast hcode none q.m past) rfl

theorem Guest.Confined.after (hg : g.Confined) (q : StateT) (past : ℕ → Byte) (n : ℕ) :
    g.after (q.withPast past) n = (g.after q n).withPast past := by
  have hsemi : Function.Semiconj (fun q : StateT => q.withPast past) g.execMips g.execMips :=
    fun q => (hg q past).symm
  exact (hsemi.iterate_right n q).symm

theorem Guest.Confined.ram (hg : g.Confined) (q : StateT) (n : ℕ) {a : ℕ} (ha : ramEnd ≤ a) :
    (g.after q n).m.ram a = q.m.ram a := by
  have hself : q.withPast q.m.ram = q := congrArg (fun m => StateT.mk m q.pc) (withPast_self q.m)
  have heq := hg.after q q.m.ram n
  rw [hself] at heq
  rw [heq]
  exact if_neg (Nat.not_lt.mpr ha)

theorem calls_confined {fns : Word → Mach → Mach → Word → Prop} (hg : g.Confined)
    (hfns : ∀ entry s s' r, fns entry s s' r →
      (∀ past, fns entry (s.withPast past) (s'.withPast past) r) ∧
      ∀ a, ramEnd ≤ a → s'.ram a = s.ram a) :
    (R4300bt.calls g fns).Confined := by
  have hinterp {target link : Word} {s s' : Mach}
      (h : (R4300bt.calls g fns).interp target link s s') :
      (∀ past, (R4300bt.calls g fns).interp target link (s.withPast past)
        (s'.withPast past)) ∧ ∀ a, ramEnd ≤ a → s'.ram a = s.ram a := by
    obtain ⟨pc, n, hcall⟩ := h
    obtain ⟨k, hk, hfirst, heq⟩ := r4300btCall_iff.mp hcall
    obtain ⟨hst, rfl⟩ := Prod.mk.inj heq
    refine ⟨fun past => ⟨pc, n, r4300btCall_iff.mpr ⟨n, hk, ?_, ?_⟩⟩, fun a ha => ?_⟩
    · have hpc (i : ℕ) : (g.after ⟨s.withPast past, sext32 target⟩ i).pc =
          (g.after ⟨s, sext32 target⟩ i).pc := by
        have hafter := congrArg StateT.pc (hg.after ⟨s, sext32 target⟩ past i)
        exact hafter
      exact ⟨(congrArg lo32 (hpc n)).trans hfirst.1, fun i hi => by
        rw [hpc i]
        exact hfirst.2 i hi⟩
    · have hafter := hg.after ⟨s, sext32 target⟩ past n
      rw [← hst] at hafter
      exact congrArg (·, n) hafter.symm
    · have hram := hg.ram ⟨s, sext32 target⟩ n ha
      rw [← hst] at hram
      exact hram
  have hdoes {direct : Option Word} {target link : Word} {s s' : Mach}
      (h : (R4300bt.calls g fns).Does direct target link s s') :
      (∀ past, (R4300bt.calls g fns).Does direct target link (s.withPast past)
        (s'.withPast past)) ∧ ∀ a, ramEnd ≤ a → s'.ram a = s.ram a := by
    cases direct with
    | none => exact hinterp h
    | some entry =>
      obtain ⟨s1, r, hr, hfix⟩ := h
      obtain ⟨hrun, hram⟩ := hfns entry s s1 r hr
      by_cases h0 : r = 0
      · rw [if_pos h0] at hfix
        subst hfix
        exact ⟨fun past => ⟨_, r, hrun past, by rw [if_pos h0]⟩, hram⟩
      · rw [if_neg h0] at hfix
        obtain ⟨hon, hkeep⟩ := hinterp hfix
        refine ⟨fun past => ⟨_, r, hrun past, ?_⟩, fun a ha => (hkeep a ha).trans (hram a ha)⟩
        rw [if_neg h0]
        exact hon past
  exact ⟨fun _ _ _ _ _ h => (hdoes h).1, fun _ _ _ _ _ h => (hdoes h).2⟩

theorem runsAt_confined (p : R4300bt) (hg : g.Confined) (k : ℕ) :
    ∀ entry s s' r, p.RunsAt g k entry s s' r →
      (∀ past, p.RunsAt g k entry (s.withPast past) (s'.withPast past) r) ∧
      ∀ a, ramEnd ≤ a → s'.ram a = s.ram a := by
  induction k with
  | zero => exact fun entry s s' r h => h.elim
  | succ k ih =>
    rintro entry s s' r ⟨gf, hgf, hrun⟩
    have hc : (R4300bt.calls g (p.RunsAt g k)).Confined :=
      calls_confined hg ih
    refine ⟨fun past => ⟨gf, hgf, ?_⟩, fun a ha => ?_⟩
    · have hlift := hrun.lift (fun x => x.withPast past) fun x y h => h.withPast hc past
      have hstart : (gf.start entry s).withPast past = gf.start entry (s.withPast past) :=
        (blockFor_withPast ..).symm
      rw [← hstart]
      exact hlift
    · have hall : ∀ y, Relation.ReflTransGen (Step p.emitter gf
          (R4300bt.calls g (p.RunsAt g k))) (gf.start entry s) y →
          y.ram a = s.ram a := by
        intro y hy
        induction hy with
        | refl => exact congrFun (blockFor_ram ..) a
        | tail _ hstep ih => exact (hstep.keeps hc ha).trans ih
      exact hall _ hrun

/-- A run of the translated functions neither depends on what lies past the end of guest memory
nor changes it. -/
theorem runs_confined (p : R4300bt) (hg : g.Confined) {entry r : Word} {s s' : Mach}
    (hrun : p.Runs g entry s s' r) :
    (∀ past, p.Runs g entry (s.withPast past) (s'.withPast past) r) ∧
      ∀ a, ramEnd ≤ a → s'.ram a = s.ram a := by
  obtain ⟨k, hk⟩ := hrun
  obtain ⟨hon, hkeep⟩ := runsAt_confined p hg k entry s s' r hk
  exact ⟨fun past => ⟨k, hon past⟩, hkeep⟩

/-- A function at 0x100 that calls the one at 0x140, which stores `$4` at `$5`. -/
def storing : Env where
  read a := [(0x100, 0x03e08025),  -- or $16, $31, $0
    (0x104, 0x0c000050),           -- jal 0x140
    (0x108, 0),
    (0x10c, 0x0200f825),           -- or $31, $16, $0
    (0x110, 0x03e00008),           -- jr $31
    (0x114, 0),
    (0x140, 0xfca40000),           -- sd $4, 0($5)
    (0x144, 0x03e00008),           -- jr $31
    (0x148, 0)].lookup a
  hints _ := none

def storingFunc : Func where
  entry := 0x100
  leaf := false
  blocks := [(0x100, ⟨0x100, 0x10c, [0x10c], true, false, false, false, false, false⟩),
    (0x10c, ⟨0x10c, 0x118, [], false, true, false, false, false, false⟩)]
  calls := [0x140]
  indirectSites := []
  unresolvedCalls := 0
  nInsns := 6

def storingState : Mach := { Mach.zero with gpr := fun r =>
  if r = 4 then 0x1122334455667788 else if r = 5 then 0x1fffffff
  else if r = 31 then 0x200 else 0 }

def storingBt : R4300bt :=
  translate storing .zero (Cfg.init.record 0x100 storingFunc ⟨[], 0, 0, 0⟩) [0x100]

def storingGuest : Guest := storing.guest .zero id

theorem runs_storing : ∃ s', storingBt.Runs storingGuest 0x100 storingState s' 0 ∧
    s'.ram 0x20000006 = 0x88 := by
  let b : Block := ⟨0x100, 0x10c, [0x10c], true, false, false, false, false, false⟩
  let b' : Block := ⟨0x10c, 0x118, [], false, true, false, false, false, false⟩
  let f₀ : Frame := Frame.reloadGPRs ⟨storingState, storingState.gpr⟩
  let f₁ : Frame := ⟨f₀.m.setGPR none 16 (f₀.m.getGPR 31 ||| 0), f₀.saved⟩
  let f₂ : Frame := (f₁.link 0x10c).spillGPRs
  let s₂ : Mach := (storingGuest.after ⟨f₂.state, sext32 0x140⟩ 2).m
  let f₃ : Frame := (f₂.resume s₂).reloadGPRs
  let f₄ : Frame := ⟨f₃.m.setGPR none 31 (f₃.m.getGPR 16 ||| 0), f₃.saved⟩
  have hfirst : storingBt.emitter.emitWord storingFunc b 0x100 f₀ = .word f₁ := rfl
  have hcall : storingBt.emitter.emitWord storingFunc b (0x100 + 4) f₁ =
      .call f₂ none 0x140 0x10c false := rfl
  have hdoes : (R4300bt.calls storingGuest (storingBt.RunsAt storingGuest 0)).Does none 0x140 0x10c
      f₂.state s₂ := by
    refine ⟨_, 2, r4300btCall_iff.mpr ⟨2, by decide, ?_, rfl⟩⟩
    unfold Guest.FirstAt
    decide
  have hword : storingBt.emitter.emitWord storingFunc b' 0x10c f₃ = .word f₄ := rfl
  have hleave : storingBt.emitter.emitWord storingFunc b' (0x10c + 4) f₄ = .leave f₄ 0 := rfl
  refine ⟨f₄.spillGPRs.state, ⟨1, storingFunc, rfl, ?_⟩, by decide⟩
  exact .head (.word hfirst) (.head (.call hcall hdoes) (.head (.word hword)
    (.head (.leave hleave) (.single .exit))))

theorem runs_confined_storing : ∃ s' : Mach, s'.ram 0x20000006 = 0x88 ∧
    (∀ past, storingBt.Runs storingGuest 0x100 (storingState.withPast past) (s'.withPast past) 0) ∧
    ∀ a, ramEnd ≤ a → s'.ram a = storingState.ram a := by
  obtain ⟨s', hrun, hlast⟩ := runs_storing
  obtain ⟨hon, hkeep⟩ := runs_confined storingBt (guest_confined storing .zero fun _ _ => rfl) hrun
  exact ⟨s', hlast, hon, hkeep⟩

end RspBt.R4300
