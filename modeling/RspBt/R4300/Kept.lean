import RspBt.R4300.Call
import RspBt.R4300.Correct
import RspBt.R4300.Program

namespace RspBt.R4300

open Lib

/-- An invariant of `state_t` that every word keeps, and that does not tie the registers to the
rest, so that it holds of the allocas over any of it. -/
structure Kept (e : Env) (fp : FpUnit) (g : Guest) (P : Mach → Prop) : Prop where
  word : ∀ pc insn code, e.read pc = some insn → emitOne fp insn = some code →
    ∀ pred m, P m → P (code pred m)
  guest : ∀ q, P q.m → P (g.execMips q).m
  link : ∀ m x, P m → P (m.setGPR none 31 (sext32 x))
  gpr : ∀ m m', P m → P m' → P { m with gpr := m'.gpr }
  zero : ∀ m m', P m → P m' → P { m with gpr := fun r => if r = 0 then m'.gpr 0 else m.gpr r }

def Frame.Keeps (P : Mach → Prop) (f : Frame) : Prop := P f.m ∧ P f.state

def Next.Keeps (P : Mach → Prop) : Next → Prop
  | .word f | .branch f _ | .leave f _ | .call f .. => f.Keeps P

def Config.Keeps (P : Mach → Prop) : Config → Prop
  | .inside _ _ f | .leaving f _ => f.Keeps P
  | .returned s _ => P s

variable {e : Env} {fp : FpUnit} {g : Guest} {P : Mach → Prop} {gf : Func}
  {b : Block} {pc insn : Word} {f : Frame} {s : Mach} {t : Emitter} {x y : Config}

namespace Kept

variable (h : Kept e fp g P)
include h

theorem spillGPRs (hf : f.Keeps P) : f.spillGPRs.Keeps P := ⟨hf.1, h.zero _ _ hf.1 hf.2⟩

theorem reloadGPRs (hf : f.Keeps P) : f.reloadGPRs.Keeps P := ⟨h.zero _ _ hf.2 hf.1, hf.2⟩

theorem resume (hf : f.Keeps P) (hs : P s) : (f.resume s).Keeps P := ⟨h.gpr _ _ hs hf.1, hs⟩

theorem run {m : Mach} (hf : f.Keeps P) (hm : P m) : (⟨m, f.saved⟩ : Frame).Keeps P :=
  ⟨hm, h.gpr _ _ hm hf.2⟩

theorem linked (pc insn : Word) {m : Mach} (hm : P m) : P (linked pc insn m) := by
  unfold R4300.linked
  split_ifs
  · exact h.link _ _ hm
  · exact hm

theorem blockFor (hf : f.Keeps P) (a : Word) : (gf.blockFor a f).Keeps P := by
  unfold Func.blockFor
  cases gf.blocks.lookup a with
  | none => exact h.spillGPRs hf
  | some b => exact hf

theorem emitSlot (hfp : t.fp = fp) {slot : Word} {code : Emit}
    (hr : e.read pc = some slot) (hcode : t.emitSlot slot = some code) (pred : Option Bool)
    {m : Mach} (hm : P m) : P (code pred m) := by
  unfold Emitter.emitSlot at hcode
  split_ifs at hcode
  · obtain rfl := Option.some.inj hcode
    exact hm
  · exact h.word pc slot code hr (hfp ▸ hcode) pred m hm

theorem emitLeave (hf : f.Keeps P) (target : Word) (cond : Bool) :
    (t.emitLeave gf b pc insn target cond f).Keeps P := by
  have hspill := h.spillGPRs hf
  unfold Emitter.emitLeave
  simp only
  split_ifs <;> first | exact hf | exact hspill

theorem emitWord (hcfg : t.cfg = e) (hfp : t.fp = fp) (hf : f.Keeps P) :
    (t.emitWord gf b pc f).Keeps P := by
  subst hcfg hfp
  unfold Emitter.emitWord
  split_ifs
  swap
  · exact hf
  cases hr : t.cfg.read pc with
  | none => exact hf
  | some insn =>
    simp only
    split_ifs
    · rcases t.emitCtl_cases gf b pc insn f with heq | ⟨slot, hslot, -, ⟨-, heq⟩ | ⟨code, hcode, heq⟩⟩
      · rw [heq]
        exact hf
      · rw [heq]
        exact h.run hf (h.linked pc insn hf.1)
      · rw [heq]
        refine h.emitLeave (h.run hf ?_) _ _
        exact h.emitSlot rfl hslot hcode _ (h.linked pc insn hf.1)
    · cases hone : emitOne t.fp insn with
      | none => exact hf
      | some code => exact h.run hf (h.word pc insn code hr hone none f.m hf.1)

theorem step {c : Calls} (hcfg : t.cfg = e) (hfp : t.fp = fp)
    (hc : ∀ direct target link s s', c.Does direct target link s s' → P s → P s')
    (hstep : Step t gf c x y) (hx : x.Keeps P) : y.Keeps P := by
  have hnext {b : Block} {pc : Word} {f : Frame} {o : Next} (hf : f.Keeps P)
      (hw : t.emitWord gf b pc f = o) : o.Keeps P := by
    rw [← hw]
    exact h.emitWord hcfg hfp hf
  cases hstep with
  | word hw => exact hnext hx hw
  | branch hw => exact h.blockFor (hnext hx hw) _
  | leave hw => exact hnext hx hw
  | call hw hd =>
    have hf := hnext hx hw
    exact h.blockFor (h.reloadGPRs (h.resume hf (hc _ _ _ _ _ hd hf.2))) _
  | tailCall hw hd =>
    have hf := hnext hx hw
    exact h.reloadGPRs (h.resume hf (hc _ _ _ _ _ hd hf.2))
  | exit => exact (h.spillGPRs hx).2

theorem start (entry : Word) (hs : P s) : (gf.start entry s).Keeps P := by
  have hf : Frame.Keeps P ⟨s, s.gpr⟩ := ⟨hs, hs⟩
  exact h.blockFor (h.reloadGPRs hf) entry

theorem after {q : StateT} (hq : P q.m) (n : ℕ) : P (g.after q n).m := by
  induction n generalizing q with
  | zero => exact hq
  | succ n ih =>
    rw [Guest.after_succ]
    exact ih (h.guest _ hq)

theorem does {fns : Word → Mach → Mach → Word → Prop}
    (hfns : ∀ entry s s' r, fns entry s s' r → P s → P s') {direct : Option Word}
    {target link : Word} {s s' : Mach}
    (hd : (R4300bt.calls g fns).Does direct target link s s') (hs : P s) : P s' := by
  have hinterp {target : Word} {s s' : Mach} (hs : P s)
      (hi : (R4300bt.calls g fns).interp target link s s') : P s' := by
    obtain ⟨pc, n, hcall⟩ := hi
    obtain ⟨k, -, -, heq⟩ := r4300btCall_iff.mp hcall
    obtain ⟨hst, -⟩ := Prod.mk.inj heq
    have hafter : P (g.after ⟨s, sext32 target⟩ k).m := h.after hs k
    exact (congrArg (fun q : StateT => P q.m) hst).mpr hafter
  cases direct with
  | none => exact hinterp hs hd
  | some entry =>
    obtain ⟨s₁, r, hr, hfix⟩ := hd
    have hs₁ := hfns entry s s₁ r hr hs
    split_ifs at hfix
    · subst hfix
      exact hs₁
    · exact hinterp hs₁ hfix

theorem runsAt {p : R4300bt} (hcfg : p.emitter.cfg = e) (hfp : p.emitter.fp = fp) (k : ℕ) :
    ∀ entry s s' r, p.RunsAt g k entry s s' r → P s → P s' := by
  induction k with
  | zero => exact fun _ _ _ _ hrun => hrun.elim
  | succ k ih =>
    rintro entry s s' r ⟨gf, -, hrun⟩ hs
    have hall : ∀ y, Relation.ReflTransGen (Step p.emitter gf
        (R4300bt.calls g (p.RunsAt g k))) (gf.start entry s) y →
        y.Keeps P := by
      intro y hy
      induction hy with
      | refl => exact h.start entry hs
      | tail _ hstep hx => exact h.step hcfg hfp (fun _ _ _ _ _ hd => h.does ih hd) hstep hx
    exact hall _ hrun

/-- A run of a translated function, with all that it calls, keeps the invariant. -/
theorem runs {p : R4300bt} (hcfg : p.emitter.cfg = e) (hfp : p.emitter.fp = fp) {entry r : Word}
    {s s' : Mach} (hrun : p.Runs g entry s s' r) (hs : P s) : P s' := by
  obtain ⟨k, hk⟩ := hrun
  exact h.runsAt hcfg hfp k entry s s' r hk hs

/-- And it holds wherever control is in the function. -/
theorem inside {p : R4300bt} (hcfg : p.emitter.cfg = e) (hfp : p.emitter.fp = fp) {entry : Word}
    {s : Mach} (hs : P s) (hy : Relation.ReflTransGen (Step p.emitter gf
      (R4300bt.calls g (p.Runs g))) (gf.start entry s) y) :
    y.Keeps P := by
  have hfns : ∀ entry s s' r, p.Runs g entry s s' r → P s → P s' :=
    fun _ _ _ _ hrun => h.runs hcfg hfp hrun
  induction hy with
  | refl => exact h.start entry hs
  | tail _ hstep hx => exact h.step hcfg hfp (fun _ _ _ _ _ hd => h.does hfns hd) hstep hx

end Kept

end RspBt.R4300
