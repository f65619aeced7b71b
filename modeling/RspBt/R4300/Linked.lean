import RspBt.R4300.Activation
import RspBt.R4300.CallGraph
import RspBt.R4300.Program

namespace RspBt.R4300

open Lib

variable {t : Emitter} {g : Guest} {gf : Func} {b : Block} {pc insn : Word}
  {f f' : Frame} {m : Mach} {q : StateT}

/-- Where the interpreter at `q` is for the way the word at `pc` of a block leads. -/
inductive Next.Matches (t : Emitter) (g : Guest) (b : Block) (pc : Word)
    (q : StateT) : Next → Prop
  | word {f : Frame} (he : g.event q = .plain)
      (hpc : (g.execMips q).pc = sext32 (pc + 4))
      (hs : Same (g.execMips q).m f.m) : Matches t g b pc q (.word f)
  /-- The end of a block is no instruction. -/
  | fall {f : Frame} {a : Word} (hend : ¬ pc < b.end_) (hpc : q.pc = sext32 a)
      (hs : Same q.m f.m) : Matches t g b pc q (.branch f a)
  | branch {f : Frame} {a : Word} (he : g.event q = .plain)
      (hpc : (g.execMips q).pc = sext32 a)
      (hs : Same (g.execMips q).m f.m) : Matches t g b pc q (.branch f a)
  | call {f : Frame} {direct : Option Word} {target : Word}
      (he : g.event q = .call) (hd : ∀ e ∈ direct, e = target ∧ t.decls e)
      (hpc : (g.execMips q).pc = sext32 target)
      (hs : Same (g.execMips q).m f.state) :
      Matches t g b pc q (.call f direct target (pc + 8) false)
  | ret {f : Frame} (he : g.event q = .ret)
      (hs : Same (g.execMips q).m f.m) : Matches t g b pc q (.leave f 0)
  | jump {f : Frame} {a : Word} (he : g.event q = .plain)
      (hpc : (g.execMips q).pc = sext32 a)
      (hs : Same (g.execMips q).m f.m) : Matches t g b pc q (.leave f a)
  | bail {f : Frame} (hs : HandedOver t q f.m) : Matches t g b pc q (.leave f pc)

theorem Guest.Events.of_ctl (h : g.Events t.cfg t.fp q) (hpc : q.pc = sext32 pc)
    (hr : t.cfg.read pc = some insn) (hctl : IsTransfer insn) : g.event q = eventOf insn := by
  have hlo : lo32 q.pc = pc := by rw [hpc, lo32_sext32]
  exact h.transfer insn (hlo ▸ hr) hctl

namespace Emitter

theorem indirect_spec {target e : Word} {tgts : List Word} (h : t.indirect target tgts = some e) :
    e = target ∧ t.decls e := by
  have hp := List.find?_some h
  simp only [Bool.and_eq_true, beq_iff_eq] at hp
  exact ⟨hp.2.symm, hp.1⟩

theorem emitLeave_jal (t : Emitter) (gf : Func) (b : Block) (pc target : Word) (cond : Bool)
    (f : Frame) (h3 : insn.op = 0x03) : t.emitLeave gf b pc insn target cond f =
      .call f.spillGPRs (t.direct ((pc &&& 0xf0000000) ||| ((insn &&& 0x3ffffff) <<< 2)))
        ((pc &&& 0xf0000000) ||| ((insn &&& 0x3ffffff) <<< 2)) (pc + 8) false := by
  have h2 : ¬ insn.op = 0x02 := by
    rw [h3]
    decide
  exact (if_neg h2).trans (if_pos h3)

theorem emitLeave_jalr (t : Emitter) (gf : Func) (b : Block) (pc target : Word) (cond : Bool)
    (f : Frame) (h0 : insn.op = 0x00) (h9 : insn.fn = 0x09) :
    t.emitLeave gf b pc insn target cond f =
      .call f.spillGPRs ((t.cfg.hints pc).bind (t.indirect target)) target (pc + 8) false := by
  have hne : ¬ insn.op = 0x02 ∧ ¬ insn.op = 0x03 := by
    rw [h0]
    decide
  exact (if_neg hne.1).trans ((if_neg hne.2).trans (if_pos ⟨h0, h9⟩))

/-- A call is made by a transfer that links, of a translated function only at its target. -/
theorem emitLeave_link (t : Emitter) (gf : Func) (b : Block) (pc : Word) (m : Mach) (f : Frame)
    (hlink : isLink insn = true) : ∃ direct,
      t.emitLeave gf b pc insn (lo32 (m.getGPR insn.rs)) (branchCond insn m) f =
        .call f.spillGPRs direct (transferTo pc insn m) (pc + 8) false ∧
      ∀ e ∈ direct, e = transferTo pc insn m ∧ t.decls e := by
  have hop : insn.op = 0x03 ∨ insn.op = 0x00 ∧ insn.fn = 0x09 := by simpa [isLink] using hlink
  rcases hop with h3 | ⟨h0, h9⟩
  · have h0 : ¬ insn.op = 0x00 := by
      rw [h3]
      decide
    have hto : transferTo pc insn m = (pc &&& 0xf0000000) ||| ((insn &&& 0x3ffffff) <<< 2) :=
      (if_neg h0).trans (if_pos (.inr h3))
    refine ⟨t.direct (transferTo pc insn m), ?_, ?_⟩
    · rw [hto]
      exact t.emitLeave_jal gf b pc _ _ f h3
    · intro e he
      unfold direct at he
      split_ifs at he with hdecl
      · obtain rfl := Option.some.inj he
        exact ⟨rfl, hdecl⟩
      · cases he
  · have hto : transferTo pc insn m = lo32 (m.getGPR insn.rs) := if_pos h0
    refine ⟨(t.cfg.hints pc).bind (t.indirect (lo32 (m.getGPR insn.rs))), ?_, ?_⟩
    · rw [hto]
      exact t.emitLeave_jalr gf b pc _ _ f h0 h9
    · intro e he
      obtain ⟨tgts, -, hind⟩ := Option.bind_eq_some_iff.mp he
      rw [hto]
      exact indirect_spec hind

theorem emitLeave_ret (t : Emitter) (gf : Func) (b : Block) (pc target : Word) (cond : Bool)
    (f : Frame) (h0 : insn.op = 0x00) (h8 : insn.fn = 0x08) (hrs : insn.rs = 31) :
    t.emitLeave gf b pc insn target cond f = .leave f 0 := by
  have hne : ¬ insn.op = 0x02 ∧ ¬ insn.op = 0x03 := by
    rw [h0]
    decide
  have h9 : ¬ (insn.op = 0x00 ∧ insn.fn = 0x09) := by
    rw [h8]
    rintro ⟨-, h⟩
    exact absurd h (by decide)
  exact (if_neg hne.1).trans ((if_neg hne.2).trans ((if_neg h9).trans ((if_pos h0).trans
    (if_pos hrs))))

theorem isLink_of_emitLeave {target a link : Word} {cond : Bool} {direct : Option Word}
    (h : t.emitLeave gf b pc insn target cond f = .call f' direct a link false) :
    isLink insn = true := by
  unfold emitLeave at h
  simp only at h
  split_ifs at h with h2 hmem h3 h9
  -- a jump that is no branch is a tail call
  · cases h
  · simp [isLink, h3]
  · simp [isLink, h9]

/-- A transfer past its slot leads where the interpreter goes. -/
theorem emitLeave_matches (hq : g.Events t.cfg t.fp q) (hctl : IsTransfer insn)
    (hjump : insn.op = 0x02 → transferTo pc insn m ∈ gf.blocks.map Prod.fst)
    (hpc : q.pc = sext32 pc) (hr : t.cfg.read pc = some insn)
    (hto : (g.execMips q).pc = sext32 (transferTo pc insn m))
    (hs : Same (g.execMips q).m f.m) :
    (t.emitLeave gf b pc insn (lo32 (m.getGPR insn.rs)) (branchCond insn m) f).Matches t g b pc q := by
  have hev := hq.of_ctl hpc hr hctl
  cases hlink : isLink insn with
  | true =>
    obtain ⟨direct, hout, hd⟩ := t.emitLeave_link gf b pc m f hlink
    rw [hout]
    exact .call (hev.trans (if_pos hlink)) hd hto (hs.trans (spillGPRs_state f))
  | false =>
    have hno : ¬ isLink insn = true := by simp [hlink]
    by_cases hret : insn.op = 0x00 ∧ insn.fn = 0x08 ∧ insn.rs = 31
    · obtain ⟨h0, h8, hrs⟩ := hret
      rw [t.emitLeave_ret gf b pc _ _ f h0 h8 hrs]
      exact .ret (hev.trans ((if_neg hno).trans (if_pos ⟨h0, h8, hrs⟩))) hs
    · have hplain := hev.trans ((if_neg hno).trans (if_neg hret))
      rcases t.emitLeave_cases b f hctl.1 hjump with hout | ⟨direct, hout⟩ | ⟨h0, h8, hrs, -⟩ | hout
      · rw [hout]
        exact .branch hplain hto hs
      · exact absurd (isLink_of_emitLeave hout) hno
      · exact absurd ⟨h0, h8, hrs⟩ hret
      · rw [hout]
        exact .jump hplain hto hs

/-- So does a transfer with its slot, or it is left to the interpreter. -/
theorem emitCtl_matches (hmips : g.Mips t.cfg t.fp q) (hev : g.Events t.cfg t.fp q)
    (hq : ApartAt t g q)
    (hjalr : isLink insn → ¬ (insn.op = 0x00 ∧ insn.rs = 31))
    (hjump : insn.op = 0x02 → transferTo pc insn f.m ∈ gf.blocks.map Prod.fst)
    (hpc : q.pc = sext32 pc) (hs : Same q.m f.m) (hr : t.cfg.read pc = some insn)
    (hctl : isCtl insn = true) : (t.emitCtl gf b pc insn f).Matches t g b pc q := by
  have hlo : lo32 q.pc = pc := by rw [hpc, lo32_sext32]
  rcases t.emitCtl_cases gf b pc insn f with heq | ⟨slot, hslot, hop, ⟨-, heq⟩ | ⟨code, hcode, heq⟩⟩
  · rw [heq]
    exact .bail (.inl hs)
  · rw [heq]
    refine .bail ?_
    cases hlink : isLink insn with
    | false =>
      left
      simp only [linked, hlink]
      exact hs
    | true =>
      right
      refine ⟨insn, ?_, hlink, hjalr hlink, ?_⟩
      · rw [hlo]
        exact hr
      · rw [hlo]
        exact hs.linked pc insn
  · rw [heq]
    obtain ⟨hto, hm⟩ := hmips.execMips_ctl hpc hr hctl hop hslot (t.emitOne_of_emitSlot hcode)
    refine emitLeave_matches hev ⟨hctl, hop⟩ hjump hpc hr ?_ ?_
    · rw [hto, ← hs.transferTo pc insn]
      rfl
    · have haway := hq.slot insn slot
      simp only [hlo, hs.branchCond insn] at haway
      simp only [execCtl, hs.branchCond insn] at hm
      exact hm.trans (slot_same hcode (hs.linked pc insn) fun hlikely =>
        haway hr hctl hslot hlikely)

end Emitter

/-- The way every word leads is the interpreter's. -/
theorem Built.emitWord_matches {entry : Word} {p : Pass1} (h : Built t.cfg entry p gf)
    (htop : t.cfg.BelowTop entry) (hscan : (Config.inside b pc f).Scanned t.cfg entry gf)
    (hmips : g.Mips t.cfg t.fp q) (hev : g.Events t.cfg t.fp q) (hq : ApartAt t g q)
    (hjalr : ∀ insn, t.cfg.read (lo32 q.pc) = some insn → isLink insn →
      ¬ (insn.op = 0x00 ∧ insn.rs = 31))
    (hpc : q.pc = sext32 pc) (hs : Same q.m f.m) : (t.emitWord gf b pc f).Matches t g b pc q := by
  have hlo : lo32 q.pc = pc := by rw [hpc, lo32_sext32]
  rcases h.lt_or_eq_end htop hscan with hlt | heq
  · unfold Emitter.emitWord
    rw [if_pos hlt]
    cases hr : t.cfg.read pc with
    | none => exact .bail (.inl hs)
    | some insn =>
      have hr' : t.cfg.read (lo32 q.pc) = some insn := hlo ▸ hr
      cases hctl : isCtl insn with
      | true =>
        simp only [hctl, if_true]
        exact Emitter.emitCtl_matches hmips hev hq (hjalr insn hr')
          (fun hj => h.jump_mem hscan hr hj f.m) hpc hs hr hctl
      | false =>
        simp only [hctl, Bool.false_eq_true, if_false]
        cases hone : emitOne t.fp insn with
        | none => exact .bail (.inl hs)
        | some code =>
          obtain ⟨hto, hm⟩ := hmips.execMips_plain hpc hr hctl hone
          exact .word (hev.plain insn code hr' hctl hone) hto
            (hm.trans ((Emit.effect_emitOne hone).same hs (hq.insn insn hr')))
  · have hend : ¬ pc < b.end_ := by
      rw [heq]
      exact BitVec.lt_irrefl _
    have hout : t.emitWord gf b pc f = .branch f b.end_ := if_neg hend
    rw [hout, ← heq]
    exact .fall hend hpc hs

/-- After `n` instructions from `q` the guest's activation is where a return of `r` says: it has
returned, or it is at that address, in none of its calls. -/
def Delivers (t : Emitter) (g : Guest) (q : StateT) (n : ℕ) (m : Mach)
    (r : Word) : Prop :=
  (r = 0 ∧ g.ReturnsAfter q n ∧ Same (g.after q n).m m) ∨
    (r ≠ 0 ∧ g.nesting q n = some 0 ∧ (g.after q n).pc = sext32 r ∧
      HandedOver t (g.after q n) m)

/-- The code is where the activation entered at `q` is after `n` instructions. -/
def Config.Along (t : Emitter) (g : Guest) (q : StateT) (n : ℕ) : Config → Prop
  | .inside _ pc f => g.nesting q n = some 0 ∧
      (g.after q n).pc = sext32 pc ∧ Same (g.after q n).m f.m
  | .leaving f r => Delivers t g q n f.m r
  | .returned s' r => Delivers t g q n s' r

/-- What the functions `f` does deliver for the guest, wherever they are called. -/
def Faithful (t : Emitter) (g : Guest)
    (f : Word → Mach → Mach → Word → Prop) : Prop :=
  ∀ entry s s' r, f entry s s' r → ∀ q, Disciplined t g q → q.pc = sext32 entry →
    Same q.m s → ∃ n, Delivers t g q n s' r

variable {entry : Word} {p : Pass1} {n : ℕ} {x y : Config} {link target : Word} {s s' : Mach}
  {fns : Word → Mach → Mach → Word → Prop}

theorem Guest.nesting_zero (g : Guest) (q : StateT) : g.nesting q 0 ≠ none := by
  intro h
  cases h

/-- The interpreter, run to the link from where the callee is, finishes it. -/
theorem Disciplined.interp_iff (h : Disciplined t g q) (hra : q.ra = sext32 link)
    (hav : g.Avoids q link) {k : ℕ} (hlive : g.nesting q k ≠ none)
    {s : StateT} (hpc : lo32 s.pc = lo32 (g.after q k).pc)
    (halike : ∀ i, Alike (g.after q (k + (i + 1))) (g.after s (i + 1)))
    {j : ℕ} : g.FirstAt s link j ↔ g.ReturnsAfter q (k + j) := by
  have hsame (i : ℕ) : lo32 (g.after s i).pc =
      lo32 (g.after (g.after q k) i).pc := by
    rw [Guest.after_add]
    cases i with
    | zero => exact hpc
    | succ i => rw [(halike i).pc]
  rw [← Guest.firstAt_iff_returns h.follows.1 hra hav hlive]
  unfold Guest.FirstAt
  simp only [hsame]

theorem Disciplined.entered_iff (h : Disciplined t g q) (hra : q.ra = sext32 link)
    (hav : g.Avoids q link) (hpc : q.pc = sext32 target) (hs : Same q.m s) {j : ℕ} :
    g.FirstAt ⟨s, sext32 target⟩ link j ↔ g.ReturnsAfter q j := by
  have halike : ∀ i, Alike (g.after q i) (g.after ⟨s, sext32 target⟩ i) :=
    h.alike ⟨hpc, hs⟩
  have hiff := h.interp_iff hra hav (Guest.nesting_zero _ q) (s := ⟨s, sext32 target⟩) (j := j)
    (congrArg lo32 hpc.symm) (fun i => by rw [Nat.zero_add]; exact halike (i + 1))
  rwa [Nat.zero_add] at hiff

theorem Disciplined.bailed_iff (h : Disciplined t g q) (hra : q.ra = sext32 link)
    (hav : g.Avoids q link) {k j : ℕ} {r : Word}
    (hdepth : g.nesting q k = some 0)
    (hat : (g.after q k).pc = sext32 r)
    (hover : HandedOver t (g.after q k) s) :
    g.FirstAt ⟨s, sext32 r⟩ link j ↔ g.ReturnsAfter q (k + j) := by
  have hlive : g.nesting q k ≠ none := by
    rw [hdepth]
    simp
  have halike := h.alike_handedOver hover
  rw [hat] at halike
  exact h.interp_iff hra hav hlive (congrArg lo32 hat.symm) halike

theorem Guest.bailed_ne_zero (hav : g.Avoids q link)
    {k j : ℕ} {r : Word} (hdepth : g.nesting q k = some 0)
    (hat : (g.after q k).pc = sext32 r)
    (hfirst : g.FirstAt ⟨s, sext32 r⟩ link j) : j ≠ 0 := by
  rintro rfl
  refine hav k ?_ ?_
  · rw [hdepth]
    simp
  · rw [hat]
    exact hfirst.1

/-- A call returns when the guest's callee does, with its state. -/
theorem Disciplined.does (h : Disciplined t g q) (hfns : Faithful t g fns)
    {direct : Option Word} (hd : ∀ e ∈ direct, e = target ∧ t.decls e)
    (hc : (R4300bt.calls g fns).Does direct target link s s')
    (hpc : q.pc = sext32 target) (hs : Same q.m s) (hra : q.ra = sext32 link)
    (hav : g.Avoids q link) :
    ∃ k, g.ReturnsAfter q k ∧ Same (g.after q k).m s' := by
  cases direct with
  | none =>
    obtain ⟨pc, j, hcall⟩ := hc
    obtain ⟨i, -, hfirst, heq⟩ := r4300btCall_iff.mp hcall
    obtain ⟨hst, rfl⟩ := Prod.mk.inj heq
    have hq : Alike q ⟨s, sext32 target⟩ := ⟨hpc, hs⟩
    have hm := (h.alike hq j).m
    rw [← hst] at hm
    exact ⟨j, (h.entered_iff hra hav hpc hs).mp hfirst, hm⟩
  | some e =>
    obtain ⟨rfl, -⟩ := hd e rfl
    obtain ⟨s1, r, hr, hfix⟩ := hc
    obtain ⟨k, ⟨rfl, hret, hm⟩ | ⟨hne, hdepth, hat, hover⟩⟩ := hfns _ _ _ _ hr q h hpc hs
    · rw [if_pos rfl] at hfix
      exact ⟨k, hret, hfix ▸ hm⟩
    -- the callee bailed, and the interpreter has the rest
    · rw [if_neg hne] at hfix
      obtain ⟨pc, j, hcall⟩ := hfix
      obtain ⟨i, -, hfirst, heq⟩ := r4300btCall_iff.mp hcall
      obtain ⟨hst, rfl⟩ := Prod.mk.inj heq
      refine ⟨k + j, (h.bailed_iff hra hav hdepth hat hover).mp hfirst, ?_⟩
      obtain ⟨i, rfl⟩ := Nat.exists_eq_succ_of_ne_zero (Guest.bailed_ne_zero hav hdepth hat hfirst)
      have hm := (h.alike_handedOver hover i).m
      rw [hat, ← hst] at hm
      exact hm

theorem Built.along_blockFor (h : Built t.cfg entry p gf) (hd : Disciplined t g q) {a : Word}
    (hdepth : g.nesting q n = some 0) (hpc : (g.after q n).pc = sext32 a)
    (hs : Same (g.after q n).m f.m) : (gf.blockFor a f).Along t g q n := by
  rcases gf.blockFor_cases a f with ⟨b, hb, heq⟩ | ⟨-, heq⟩
  · rw [heq]
    obtain ⟨-, -, -, hstart, -⟩ := h.scan hb
    exact ⟨hdepth, by rw [hstart, hpc], hs⟩
  · rw [heq]
    have hne := hd.nonzero n
    rw [hpc, lo32_sext32] at hne
    exact .inr ⟨hne, hdepth, hpc, .inl hs⟩

/-- Along a disciplined run the word that the code is at leads where the guest goes. -/
theorem Built.along_matches (h : Built t.cfg entry p gf) (htop : t.cfg.BelowTop entry)
    (hd : Disciplined t g q) (hscan : (Config.inside b pc f).Scanned t.cfg entry gf)
    (hx : (Config.inside b pc f).Along t g q n) :
    (t.emitWord gf b pc f).Matches t g b pc (g.after q n) :=
  h.emitWord_matches htop hscan (hd.mips n) (hd.events n) (hd.apart n) (hd.jalr n) hx.2.1 hx.2.2

/-- A step of the code takes the guest on, past a whole callee where it is a call.  It waits
where the function is left, and where a block ends. -/
theorem Built.along_step (h : Built t.cfg entry p gf) (htop : t.cfg.BelowTop entry)
    (hd : Disciplined t g q) (hfns : Faithful t g fns)
    (hscan : x.Scanned t.cfg entry gf)
    (hxy : Step t gf (R4300bt.calls g fns) x y)
    (hx : x.Along t g q n) :
    ∃ k, n ≤ k ∧ y.Along t g q k ∧ ∀ b pc f, x = .inside b pc f → pc < b.end_ →
      n < k ∨ ∃ f' r, y = .leaving f' r := by
  have hnext : g.after q (n + 1) =
      g.execMips (g.after q n) := Function.iterate_succ_apply' ..
  cases hxy with
  | exit =>
    refine ⟨n, le_rfl, ?_, fun b pc f h => by cases h⟩
    rcases hx with ⟨rfl, hret, hs⟩ | ⟨hne, hdepth, hat, hs⟩
    · exact .inl ⟨rfl, hret, hs.trans (spillGPRs_state _)⟩
    · refine .inr ⟨hne, hdepth, hat, ?_⟩
      rcases hs with hs | ⟨insn, hr, hlink, hreg, hs⟩
      · exact .inl (hs.trans (spillGPRs_state _))
      · exact .inr ⟨insn, hr, hlink, hreg, hs.trans (spillGPRs_state _)⟩
  | @word b pc f f' hw =>
    have hm := h.along_matches htop hd hscan hx
    obtain ⟨hdepth, hpc, hs⟩ := hx
    rw [hw] at hm
    cases hm with
    | word he hpc' hs' =>
      rw [← hnext] at hpc' hs'
      exact ⟨n + 1, n.le_succ, ⟨Guest.nesting_plain hdepth he, hpc', hs'⟩,
        fun _ _ _ _ _ => .inl n.lt_succ_self⟩
  | @branch b pc a f f' hw =>
    have hm := h.along_matches htop hd hscan hx
    obtain ⟨hdepth, hpc, hs⟩ := hx
    rw [hw] at hm
    cases hm with
    | fall hend hpc' hs' =>
      refine ⟨n, le_rfl, h.along_blockFor hd hdepth hpc' hs', fun b' pc' f' heq hlt => ?_⟩
      cases heq
      exact absurd hlt hend
    | branch he hpc' hs' =>
      rw [← hnext] at hpc' hs'
      exact ⟨n + 1, n.le_succ, h.along_blockFor hd (Guest.nesting_plain hdepth he) hpc' hs',
        fun _ _ _ _ _ => .inl n.lt_succ_self⟩
  | @leave b pc r f f' hw =>
    have hm := h.along_matches htop hd hscan hx
    obtain ⟨hdepth, hpc, hs⟩ := hx
    have hne (k : ℕ) (a : Word) (ha : (g.after q k).pc = sext32 a) : a ≠ 0 := by
      have hne := hd.nonzero k
      rwa [ha, lo32_sext32] at hne
    rw [hw] at hm
    cases hm with
    | ret he hs' =>
      rw [← hnext] at hs'
      exact ⟨n + 1, n.le_succ, .inl ⟨rfl, .of_ret hdepth he, hs'⟩,
        fun _ _ _ _ _ => .inr ⟨f', 0, rfl⟩⟩
    | jump he hpc' hs' =>
      rw [← hnext] at hpc' hs'
      exact ⟨n + 1, n.le_succ,
        .inr ⟨hne _ _ hpc', Guest.nesting_plain hdepth he, hpc', .inl hs'⟩,
        fun _ _ _ _ _ => .inr ⟨f', r, rfl⟩⟩
    | bail hs' =>
      exact ⟨n, le_rfl, .inr ⟨hne n pc hpc, hdepth, hpc, hs'⟩,
        fun _ _ _ _ _ => .inr ⟨f', pc, rfl⟩⟩
  | @call b pc target link f f' direct s' hw hc =>
    have hm := h.along_matches htop hd hscan hx
    obtain ⟨hdepth, hpc, hs⟩ := hx
    rw [hw] at hm
    cases hm with
    | call he hdir hpc' hs' =>
      have hlink := hd.linked n he
      have hav := hd.avoids n he
      rw [hpc, lo32_sext32] at hlink hav
      rw [← hnext] at hpc' hs'
      have hcallee := hd.callee he
      obtain ⟨k, hret, hs''⟩ := hcallee.does hfns hdir hc hpc' hs' hlink hav
      have hback := (hcallee.follows.1 k hret).1
      rw [hlink] at hback
      rw [Guest.after_add] at hback hs''
      exact ⟨n + 1 + k, by omega, h.along_blockFor hd
        (Guest.nesting_return (Guest.nesting_call hdepth he) hret) hback
        (hs''.trans (resume_same f' s')), fun _ _ _ _ _ => .inl (by omega)⟩
  | @tailCall b pc target link f f' direct s' hw hc =>
    have hm := h.along_matches htop hd hscan hx
    rw [hw] at hm
    cases hm

/-- Whatever a function returns, the guest's activation has come as far. -/
theorem Built.delivers (h : Built t.cfg entry p gf) (htop : t.cfg.BelowTop entry)
    (hd : Disciplined t g q) (hfns : Faithful t g fns) (hpc : q.pc = sext32 entry)
    (hs : Same q.m s) {r : Word}
    (hrun : Relation.ReflTransGen (Step t gf (R4300bt.calls g fns))
      (gf.start entry s) (.returned s' r)) : ∃ n, Delivers t g q n s' r := by
  have hstart : (gf.start entry s).Along t g q 0 :=
    h.along_blockFor hd rfl hpc (hs.trans (.of_gpr s fun r hr => if_neg hr))
  have hall : ∀ x, Relation.ReflTransGen (Step t gf (R4300bt.calls g fns))
      (gf.start entry s) x → ∃ n, x.Along t g q n := by
    intro x hx
    induction hx with
    | refl => exact ⟨0, hstart⟩
    | tail hrun hstep ih =>
      obtain ⟨n, hn⟩ := ih
      obtain ⟨k, -, hk, -⟩ := h.along_step htop hd hfns (h.scanned_run hrun) hstep hn
      exact ⟨k, hk⟩
  exact hall _ hrun

structure R4300bt.Made (p : R4300bt) : Prop where
  built : ∀ f gf, p.fns f = some gf → ∃ n log, build p.emitter.cfg n f = some (gf, log)
  below : ∀ f gf, p.fns f = some gf → p.emitter.cfg.BelowTop f
  decls : ∀ f, p.emitter.decls f → ∃ gf, p.fns f = some gf

theorem made_translate {e : Env} {fp : FpUnit} {n : ℕ} {roots : List Word} {c : Cfg}
    (hdisc : Cfg.discover e n roots = some c) (htop : ∀ f, (c.funcs f).isSome → e.BelowTop f)
    (entries : List Word) : (translate e fp c entries).Made where
  built f gf hgf := by
    simp only [translate] at hgf
    split_ifs at hgf
    obtain ⟨log, hlog⟩ := (Cfg.discover_inv hdisc).built f gf hgf
    exact ⟨n, log, hlog⟩
  below f gf hgf := by
    simp only [translate] at hgf
    split_ifs at hgf
    refine htop f ?_
    rw [hgf]
    rfl
  decls f hf := by
    have hmem : f ∈ declare c.funcs entries := by simpa [translate] using hf
    obtain ⟨gf, hgf⟩ := Option.isSome_iff_exists.mp ((mem_declare_iff ..).mp hmem).2
    exact ⟨gf, (if_pos hmem).trans hgf⟩

/-- By induction on how deep the calls between translated functions are nested. -/
theorem R4300bt.Made.faithfulAt {p : R4300bt} (hp : p.Made) (k : ℕ) :
    Faithful p.emitter g (p.RunsAt g k) := by
  induction k with
  | zero =>
    intro entry s s' r hrun
    exact hrun.elim
  | succ k ih =>
    rintro entry s s' r ⟨gf, hgf, hrun⟩ q hd hpc hs
    obtain ⟨n, log, hbuild⟩ := hp.built entry gf hgf
    obtain ⟨pass, h, -⟩ := build_spec hbuild
    exact h.delivers (hp.below entry gf hgf) hd ih hpc hs hrun

theorem R4300bt.Made.faithful {p : R4300bt} (hp : p.Made) :
    Faithful p.emitter g (p.Runs g) := by
  rintro entry s s' r ⟨k, hk⟩
  exact hp.faithfulAt k entry s s' r hk

end RspBt.R4300
