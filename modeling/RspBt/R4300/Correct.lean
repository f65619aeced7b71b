import RspBt.R4300.Call
import RspBt.R4300.CfgClosed
import RspBt.R4300.Predicate
import RspBt.R4300.Spin

namespace RspBt.R4300

open Lib

variable {t : Emitter} {g : Guest} {gf : Func} {b : Block} {pc insn : Word}
  {f f' : Frame} {m m' : Mach}

theorem Alike.refl (q : StateT) : Alike q q := ⟨rfl, .refl q.m⟩

theorem Guest.Mips.execMips_plain {q : StateT} (h : g.Mips t.cfg t.fp q) (hpc : q.pc = sext32 pc)
    (hr : t.cfg.read pc = some insn) (hctl : isCtl insn = false) {code : Emit}
    (hone : emitOne t.fp insn = some code) :
    Alike (g.execMips q) ⟨code none q.m, sext32 (pc + 4)⟩ := by
  have hlo : lo32 q.pc = pc := by rw [hpc, lo32_sext32]
  have hq := h.plain insn code
  rw [hlo] at hq
  exact hq hr hctl hone

theorem Guest.Mips.execMips_ctl {q : StateT} (h : g.Mips t.cfg t.fp q) (hpc : q.pc = sext32 pc)
    (hr : t.cfg.read pc = some insn) (hctl : isCtl insn = true)
    (hop : ¬ (insn.op = 0x01 ∧ 3 < insn.rt)) {slot : Word} (hslot : t.cfg.read (pc + 4) = some slot)
    {code : Emit} (hone : emitOne t.fp slot = some code) :
    Alike (g.execMips q) (execCtl pc insn code q.m) := by
  have hlo : lo32 q.pc = pc := by rw [hpc, lo32_sext32]
  have hq := h.transfer insn slot code
  rw [hlo] at hq
  exact hq hr ⟨hctl, hop⟩ hslot hone

theorem Same.linked (h : Same m m') (pc insn : Word) :
    Same (R4300.linked pc insn m) (R4300.linked pc insn m') := by
  unfold R4300.linked
  split_ifs
  · exact h.setGPR _ _
  · exact h

theorem Same.branchCond (h : Same m m') (insn : Word) : branchCond insn m = branchCond insn m' := by
  unfold R4300.branchCond
  simp only [h.gpr, h.load]

theorem Same.transferTo (h : Same m m') (pc insn : Word) :
    transferTo pc insn m = transferTo pc insn m' := by
  unfold R4300.transferTo
  simp only [h.gpr, h.branchCond]

/-- A slot of zero is a nop, though no code is emitted for it. -/
theorem Emitter.emitOne_of_emitSlot {slot : Word} {code : Emit} (h : t.emitSlot slot = some code) :
    emitOne t.fp slot = some fun pred m => code pred m := by
  unfold emitSlot at h
  split_ifs at h with h0
  · obtain rfl := Option.some.inj h
    subst h0
    rfl
  · exact h

/-- The slot of a transfer, as the code runs it under its predicate. -/
theorem slot_same {slot : Word} {code : Emit} (hs : t.emitSlot slot = some code)
    (h : Same m m') {likely cond : Bool} (ha : (likely → cond) → Away slot m) :
    Same (if likely ∧ cond = false then m else code none m)
      (code (if likely then some cond else none) m') := by
  have hone := t.emitOne_of_emitSlot hs
  have hplain (haway : Away slot m) : Same (code none m) (code none m') :=
    (Emit.effect_emitOne hone).same h haway
  cases likely with
  | false =>
    rw [if_neg (by simp), if_neg (by simp)]
    exact hplain (ha (by simp))
  | true =>
    rw [if_pos rfl]
    cases cond with
    | true =>
      rw [if_neg (by simp), (emitOne_predicated hone m').1]
      exact hplain (ha (by simp))
    | false =>
      rw [if_pos (by simp)]
      exact h.trans (.of_squashed (emitOne_predicated hone m').2)

namespace Emitter

/-- A transfer that has code is left past its slot, or for a slot with no code, at the transfer. -/
theorem emitCtl_cases (t : Emitter) (gf : Func) (b : Block) (pc insn : Word) (f : Frame) :
    t.emitCtl gf b pc insn f = .leave f pc ∨
    ∃ slot, t.cfg.read (pc + 4) = some slot ∧ ¬ (insn.op = 0x01 ∧ 3 < insn.rt) ∧
      ((t.emitSlot slot = none ∧
        t.emitCtl gf b pc insn f = .leave ⟨linked pc insn f.m, f.saved⟩ pc) ∨
      ∃ code, t.emitSlot slot = some code ∧
        t.emitCtl gf b pc insn f = t.emitLeave gf b pc insn (lo32 (f.m.getGPR insn.rs))
          (branchCond insn f.m) ⟨code (if isLikely insn then some (branchCond insn f.m) else none)
            (linked pc insn f.m), f.saved⟩) := by
  have hlink : (if isLink insn then f.link (pc + 8) else f) = ⟨linked pc insn f.m, f.saved⟩ := by
    unfold linked Frame.link
    split_ifs <;> rfl
  unfold emitCtl
  cases hslot : t.cfg.read (pc + 4) with
  | none => exact .inl rfl
  | some slot =>
    by_cases hop : insn.op = 0x01 ∧ 3 < insn.rt
    · simp only [if_pos hop]
      exact .inl trivial
    · simp only [if_neg hop, hlink]
      refine .inr ⟨slot, rfl, hop, ?_⟩
      cases hcode : t.emitSlot slot with
      | none => exact .inl ⟨rfl, rfl⟩
      | some code => exact .inr ⟨code, rfl, rfl⟩

/-- The ways out, each to where the transfer goes. -/
theorem emitLeave_cases (t : Emitter) {gf : Func} (b : Block) {pc insn : Word} {m : Mach}
    (f : Frame) (hctl : isCtl insn = true)
    (hjump : insn.op = 0x02 → transferTo pc insn m ∈ gf.blocks.map Prod.fst) :
    let out := t.emitLeave gf b pc insn (lo32 (m.getGPR insn.rs)) (branchCond insn m) f
    out = .branch f (transferTo pc insn m) ∨
    (∃ direct, out = .call f.spillGPRs direct (transferTo pc insn m) (pc + 8) false) ∨
    (insn.op = 0x00 ∧ insn.fn = 0x08 ∧ insn.rs = 31 ∧ out = .leave f 0) ∨
    out = .leave f.spillGPRs (transferTo pc insn m) := by
  intro out
  by_cases h0 : insn.op = 0x00
  · have hto : transferTo pc insn m = lo32 (m.getGPR insn.rs) := if_pos h0
    have hne : ¬ insn.op = 0x02 ∧ ¬ insn.op = 0x03 := by
      rw [h0]
      decide
    rw [hto]
    by_cases h9 : insn.fn = 0x09
    · right; left
      exact ⟨(t.cfg.hints pc).bind (t.indirect (lo32 (m.getGPR insn.rs))),
        (if_neg hne.1).trans ((if_neg hne.2).trans (if_pos ⟨h0, h9⟩))⟩
    · have h8 : insn.fn = 0x08 := by
        have hfn : insn.fn = 0x08 ∨ insn.fn = 0x09 := by simpa [isCtl, h0] using hctl
        exact hfn.resolve_right h9
      -- the emitter looks at `jr` last, after `j`, `jal` and `jalr`
      have hout : out = if insn.rs = 31 then .leave f 0
          else if lo32 (m.getGPR insn.rs) ∈ b.succs then .branch f (lo32 (m.getGPR insn.rs))
          else .leave f.spillGPRs (lo32 (m.getGPR insn.rs)) :=
        (if_neg hne.1).trans ((if_neg hne.2).trans ((if_neg fun h => h9 h.2).trans (if_pos h0)))
      by_cases hrs : insn.rs = 31
      · exact .inr (.inr (.inl ⟨h0, h8, hrs, hout.trans (if_pos hrs)⟩))
      · by_cases hmem : lo32 (m.getGPR insn.rs) ∈ b.succs
        · exact .inl (hout.trans ((if_neg hrs).trans (if_pos hmem)))
        · exact .inr (.inr (.inr (hout.trans ((if_neg hrs).trans (if_neg hmem)))))
  · by_cases h2 : insn.op = 0x02
    · have hto : transferTo pc insn m = (pc &&& 0xf0000000) ||| ((insn &&& 0x3ffffff) <<< 2) :=
        (if_neg h0).trans (if_pos (.inl h2))
      have hmem := hjump h2
      rw [hto] at hmem ⊢
      exact .inl ((if_pos h2).trans (if_pos hmem))
    · by_cases h3 : insn.op = 0x03
      · have hto : transferTo pc insn m = (pc &&& 0xf0000000) ||| ((insn &&& 0x3ffffff) <<< 2) :=
          (if_neg h0).trans (if_pos (.inr h3))
        rw [hto]
        exact .inr (.inl ⟨_, (if_neg h2).trans (if_pos h3)⟩)
      · have hto : transferTo pc insn m =
            if branchCond insn m then pc + 4 + insn.simm <<< 2 else pc + 8 :=
          (if_neg h0).trans (if_neg fun h => h.elim h2 h3)
        rw [hto]
        exact .inl ((if_neg h2).trans ((if_neg h3).trans ((if_neg fun h => h0 h.1).trans
          (if_neg h0))))

end Emitter

/-- What the interpreter is handed: its own state, or the one with the link already in `$31` of
the transfer it is at, which links again and does not read `$31`. -/
def HandedOver (t : Emitter) (q : StateT) (s' : Mach) : Prop :=
  Same q.m s' ∨ ∃ insn, t.cfg.read (lo32 q.pc) = some insn ∧ isLink insn ∧
    ¬ (insn.op = 0x00 ∧ insn.rs = 31) ∧ Same (linked (lo32 q.pc) insn q.m) s'

theorem getGPR_linked {r : BitVec 5} (hr : r ≠ 31) (pc insn : Word) (m : Mach) :
    (linked pc insn m).getGPR r = m.getGPR r := by
  have h31 : ¬ (31 : BitVec 5) = 0 := by decide
  unfold linked
  split_ifs
  · simp only [Mach.getGPR, Mach.setGPR, if_neg h31, Function.update_of_ne hr]
  · rfl

theorem linked_linked (pc insn : Word) (m : Mach) :
    Same (linked pc insn (linked pc insn m)) (linked pc insn m) := by
  have hset : (m.setGPR none 31 (sext32 (pc + 8))).setGPR none 31 (sext32 (pc + 8)) =
      m.setGPR none 31 (sext32 (pc + 8)) := by
    have h31 : ¬ (31 : BitVec 5) = 0 := by decide
    simp only [Mach.setGPR, if_neg h31, guarded, Function.update_idem]
  unfold linked
  split_ifs
  · rw [hset]
    exact .refl _
  · exact .refl _

/-- It goes on from what it is handed as from its own state, an instruction later at the latest. -/
def Resumes (g : Guest) (q : StateT) (s' : Mach) : Prop :=
  Same q.m s' ∨ Alike (g.execMips q) (g.execMips ⟨s', q.pc⟩)

theorem HandedOver.resumes {q : StateT} {s' : Mach} (h : HandedOver t q s')
    (hq : g.Mips t.cfg t.fp q) : Resumes g q s' := by
  rcases h with hs | ⟨insn, hr, hlink, hreg, hs⟩
  · exact .inl hs
  · exact .inr (hq.relink insn s' hr hlink hreg hs)

/-- The interpreter is where a return of `r` says, with the state the function leaves. -/
def Out (t : Emitter) (s : Mach) (q : StateT) (m : Mach) (r : Word) : Prop :=
  (r = 0 ∧ q.pc = sext32 (lo32 (s.getGPR 31)) ∧ Same q.m m) ∨ (q.pc = sext32 r ∧ HandedOver t q m)

def Config.At (t : Emitter) (s : Mach) (q : StateT) : Config → Prop
  | .inside _ pc f => q.pc = sext32 pc ∧ Same q.m f.m
  | .leaving f r => Out t s q f.m r
  | .returned s' r => Out t s q s' r

def Next.At (t : Emitter) (g : Guest) (s : Mach) (pc : Word) (q : StateT) :
    Next → Prop
  | .word f => (g.execMips q).pc = sext32 (pc + 4) ∧
      Same (g.execMips q).m f.m
  | .branch f a => (q.pc = sext32 a ∧ Same q.m f.m) ∨
      ((g.execMips q).pc = sext32 a ∧ Same (g.execMips q).m f.m)
  | .leave f r => Out t s q f.m r ∨ Out t s (g.execMips q) f.m r
  | .call f _ target _ tail => tail = false ∧
      (g.execMips q).pc = sext32 target ∧
      Same (g.execMips q).m f.state

variable {entry : Word} {p : Pass1} {c : Calls} {s : Mach} {q : StateT} {x y : Config}

/-- Below the top of memory the code of a block stops where the block ends. -/
theorem Built.lt_or_eq_end (h : Built t.cfg entry p gf) (htop : t.cfg.BelowTop entry)
    (hx : (Config.inside b pc f).Scanned t.cfg entry gf) : pc < b.end_ ∨ pc = b.end_ := by
  obtain ⟨s, i, k, stop, hb, hcut, hend, rfl, hik⟩ := hx
  have hlow (j : ℕ) (hj : j < k + stop.words) : nth s j < 0xfffffffc :=
    htop _ (hcut.executed (h.target hb) hj)
  rw [Stop.past_nth] at hend
  by_cases hi : i < k + stop.words
  · left
    rw [hend, BitVec.lt_def, toNat_nth hlow hi.le, toNat_nth hlow le_rfl]
    omega
  · right
    rw [hend]
    congr 1
    omega

theorem Built.jump_mem (h : Built t.cfg entry p gf)
    (hx : (Config.inside b pc f).Scanned t.cfg entry gf) (hr : t.cfg.read pc = some insn)
    (hop : insn.op = 0x02) (m : Mach) : transferTo pc insn m ∈ gf.blocks.map Prod.fst := by
  obtain ⟨s, i, k, stop, hb, hcut, -, rfl, hik⟩ := hx
  have hreach : t.cfg.Reached entry (nth s i) :=
    Env.Run.reached (fun j hj => hcut.run j (by omega)) (h.target hb).reached
  have hne : ¬ insn.op = 0x00 := by
    rw [hop]
    decide
  have hto : transferTo (nth s i) insn m =
      (nth s i &&& 0xf0000000) ||| ((insn &&& 0x3ffffff) <<< 2) :=
    (if_neg hne).trans (if_pos (.inl hop))
  have hdec : decode (nth s i) insn = ⟨.jump, transferTo (nth s i) insn m, 0⟩ := by
    rw [hto]
    simp only [decode, hop]
    rfl
  rw [h.starts_iff]
  have hterm : t.cfg.TermAt (nth s i) ⟨.jump, transferTo (nth s i) insn m, 0⟩ :=
    ⟨insn, hr, hdec, by simp, by simp⟩
  exact .inr ⟨nth s i, _, _, hreach, hterm, rfl, List.mem_singleton.mpr rfl⟩

theorem spillGPRs_state (f : Frame) : Same f.m f.spillGPRs.state :=
  .of_gpr f.m fun _ hr => if_neg hr

theorem resume_same (f : Frame) (s : Mach) : Same s (f.resume s).reloadGPRs.m := by
  refine ⟨fun r => ?_, rfl, rfl, rfl, rfl, fun _ _ => rfl⟩
  unfold Mach.getGPR
  split_ifs with hr
  · rfl
  · exact (if_neg hr).symm

theorem transferTo_linked (hlink : isLink insn = true) (hreg : ¬ (insn.op = 0x00 ∧ insn.rs = 31))
    (h : Same (linked pc insn m) m') : transferTo pc insn m = transferTo pc insn m' := by
  have hop : insn.op = 0x03 ∨ insn.op = 0x00 ∧ insn.fn = 0x09 := by simpa [isLink] using hlink
  rw [← h.transferTo]
  unfold transferTo
  rcases hop with h3 | ⟨h0, -⟩
  · have h0 : ¬ insn.op = 0x00 := by
      rw [h3]
      decide
    rw [if_neg h0, if_neg h0, if_pos (.inr h3), if_pos (.inr h3)]
  · rw [if_pos h0, if_pos h0, getGPR_linked fun h31 => hreg ⟨h0, h31⟩]

theorem isTransfer_of_isLink (hlink : isLink insn = true) :
    IsTransfer insn ∧ isLikely insn = false := by
  have hop : insn.op = 0x03 ∨ insn.op = 0x00 ∧ insn.fn = 0x09 := by simpa [isLink] using hlink
  rcases hop with h3 | ⟨h0, h9⟩
  · exact ⟨⟨by simp [isCtl, h3], by simp [h3]⟩, by simp [isLikely, h3]⟩
  · exact ⟨⟨by simp [isCtl, h0, h9], by simp [h0]⟩, by simp [isLikely, h0]⟩

namespace Env

variable {e : Env} {fp : FpUnit} {rest : StateT → StateT} {q : StateT} {code : Emit}

theorem guest_plain (hr : e.read (lo32 q.pc) = some insn) (hctl : isCtl insn = false)
    (hone : emitOne fp insn = some code) :
    (e.guest fp rest).execMips q = ⟨code none q.m, sext32 (lo32 q.pc + 4)⟩ := by
  simp [guest, hr, hctl, hone]

theorem guest_transfer {slot : Word} (hr : e.read (lo32 q.pc) = some insn) (hctl : IsTransfer insn)
    (hslot : e.read (lo32 q.pc + 4) = some slot) (hone : emitOne fp slot = some code) :
    (e.guest fp rest).execMips q = execCtl (lo32 q.pc) insn code q.m := by
  simp only [guest, hr, hctl.1, if_true, hslot, if_neg hctl.2, hone]

theorem guest_execs : (e.guest fp rest).Execs e fp q where
  plain insn code hr hctl hone := by
    rw [guest_plain hr hctl hone]
    exact .refl _
  transfer insn slot code hr hctl hslot hone := by
    rw [guest_transfer hr hctl hslot hone]
    exact .refl _

/-- Where the slots of calls are translated and access no memory. -/
theorem guest_mips (hlinks : ∀ insn, e.read (lo32 q.pc) = some insn → isLink insn → ∃ slot code,
      e.read (lo32 q.pc + 4) = some slot ∧ emitOne fp slot = some code ∧ accessBytes slot = 0) :
    (e.guest fp rest).Mips e fp q where
  toExecs := guest_execs
  relink insn m' hr hlink hreg hs := by
    obtain ⟨hctl, hlikely⟩ := isTransfer_of_isLink hlink
    obtain ⟨slot, code, hslot, hone, haccess⟩ := hlinks insn hr hlink
    have hm : Same (linked (lo32 q.pc) insn q.m) (linked (lo32 q.pc) insn m') :=
      (linked_linked (lo32 q.pc) insn q.m).symm.trans (hs.linked (lo32 q.pc) insn)
    rw [guest_transfer hr hctl hslot hone, guest_transfer (q := ⟨m', q.pc⟩) hr hctl hslot hone]
    refine ⟨congrArg sext32 (transferTo_linked hlink hreg hs), ?_⟩
    simp only [execCtl, hlikely, Bool.false_eq_true, false_and, if_false]
    exact (Emit.effect_emitOne hone).same hm (.inl haccess)

theorem guest_events : (e.guest fp rest).Events e fp q where
  plain insn code hr hctl _ := by
    have hlink : ¬ isLink insn = true := fun hlink => by
      rw [(isTransfer_of_isLink hlink).1.1] at hctl
      cases hctl
    have hret : ¬ (insn.op = 0x00 ∧ insn.fn = 0x08 ∧ insn.rs = 31) := by
      rintro ⟨h0, h8, -⟩
      simp [isCtl, h0, h8] at hctl
    simp only [guest, hr]
    exact (if_neg hlink).trans (if_neg hret)
  transfer insn hr _ := by simp only [guest, hr]

theorem guest_step (hnone : ∀ a insn, e.read a = some insn → accessBytes insn = 0)
    (hrest : ∀ m, Same q.m m → Alike (rest q) (rest ⟨m, q.pc⟩)) (hm : Same q.m m) :
    Alike ((e.guest fp rest).execMips q) ((e.guest fp rest).execMips ⟨m, q.pc⟩) := by
  by_cases ht : e.Translated fp q
  · obtain ⟨insn, hr, ⟨hctl, code, hone⟩ | ⟨hctl, slot, code, hslot, hone⟩⟩ := ht
    · rw [guest_plain hr hctl hone, guest_plain (q := ⟨m, q.pc⟩) hr hctl hone]
      exact ⟨rfl, (Emit.effect_emitOne hone).same hm (.inl (hnone _ insn hr))⟩
    · have hlinked := hm.linked (lo32 q.pc) insn
      rw [guest_transfer hr hctl hslot hone, guest_transfer (q := ⟨m, q.pc⟩) hr hctl hslot hone]
      refine ⟨congrArg sext32 (hm.transferTo (lo32 q.pc) insn), ?_⟩
      simp only [execCtl, hm.branchCond insn]
      split_ifs
      · exact hlinked
      · exact (Emit.effect_emitOne hone).same hlinked (.inl (hnone _ slot hslot))
  · have ht' : ¬ e.Translated fp ⟨m, q.pc⟩ := ht
    rw [guest_rest ht, guest_rest ht']
    exact hrest m hm

/-- Straight-line code, calls and returns stay in their own list of addresses. -/
theorem Reached.mem_of {e : Env} {entry a : Word} {l : List Word} (h : e.Reached entry a)
    (hentry : entry ∈ l)
    (hl : ∀ x ∈ l, ∃ insn, e.read x = some insn ∧
      ((decode x insn).k = .fall ∧ x + 4 ∈ l ∨ (decode x insn).k = .call ∧ x + 8 ∈ l ∨
        (decode x insn).k = .jr ∧ (decode x insn).reg = 31)) : a ∈ l := by
  induction h with
  | entry => exact hentry
  | fall _ hf ih =>
    obtain ⟨insn, hr, ⟨-, hmem⟩ | ⟨hk, -⟩ | ⟨hk, -⟩⟩ := hl _ ih
    · exact hmem
    · obtain ⟨insn', hr', hk'⟩ := hf
      obtain rfl := Option.some.inj (hr.symm.trans hr')
      rw [hk] at hk'
      cases hk'
    · obtain ⟨insn', hr', hk'⟩ := hf
      obtain rfl := Option.some.inj (hr.symm.trans hr')
      rw [hk] at hk'
      cases hk'
  | succ _ hc hs ht ih =>
    obtain ⟨insn', hr', rfl, hnf, -⟩ := hc
    obtain ⟨insn, hr, ⟨hk, -⟩ | ⟨hk, hmem⟩ | ⟨hk, hreg⟩⟩ := hl _ ih
    · obtain rfl := Option.some.inj (hr.symm.trans hr')
      exact absurd hk hnf
    · obtain rfl := Option.some.inj (hr.symm.trans hr')
      simp only [Env.Succs, hk] at hs
      subst hs
      obtain rfl := List.mem_singleton.mp ht
      exact hmem
    · obtain rfl := Option.some.inj (hr.symm.trans hr')
      simp only [Env.Succs, hk, hreg, if_true] at hs
      subst hs
      cases ht

theorem belowTop_of {e : Env} {entry : Word} {l : List Word}
    (hl : ∀ a, e.Reached entry a → a ∈ l) (hlow : ∀ a ∈ l, a < 0xfffffff8) : e.BelowTop entry := by
  intro a ha
  cases ha with
  | reached h =>
    have := hlow a (hl a h)
    bv_omega
  | slot h hc =>
    have := hlow _ (hl _ h)
    bv_omega

end Env

theorem mem_of_lookup {l : List (Word × Word)} {a x : Word} (h : l.lookup a = some x) :
    (a, x) ∈ l := by
  obtain ⟨l₁, l₂, rfl, -⟩ := List.lookup_eq_some_iff.mp h
  exact List.mem_append_right l₁ (List.mem_cons_self ..)

theorem Step.of_word (hw : t.emitWord gf b pc f = .word f') (h : Step t gf c (.inside b pc f) y) :
    y = .inside b (pc + 4) f' := by
  cases h with
  | word h =>
    rw [hw] at h
    cases h
    rfl
  | branch h | leave h | call h | tailCall h =>
    rw [hw] at h
    cases h

theorem Step.of_call {direct : Option Word} {target link : Word}
    (hw : t.emitWord gf b pc f = .call f' direct target link false)
    (h : Step t gf c (.inside b pc f) y) :
    ∃ s, c.Does direct target link f'.state s ∧
      y = gf.blockFor link (f'.resume s).reloadGPRs := by
  cases h with
  | call h hc =>
    rw [hw] at h
    cases h
    exact ⟨_, hc, rfl⟩
  | word h | branch h | leave h | tailCall h =>
    rw [hw] at h
    cases h

theorem start_same (s : Mach) : Same s (Frame.reloadGPRs ⟨s, s.gpr⟩).m :=
  .of_gpr s fun _ hr => if_neg hr

/-- A function of two words at `a`: `jr $31`, and `addiu $2, $0, 1` in its slot. -/
def leafFunc (a e : Word) : Func where
  entry := a
  leaf := true
  blocks := [(a, ⟨a, e, [], false, true, false, false, false, false⟩)]
  calls := []
  indirectSites := []
  unresolvedCalls := 0
  nInsns := 2

def noCalls : Calls := ⟨fun _ _ _ _ => False, fun _ _ _ _ => False⟩

/-- A function at 0x100 that calls the one at 0x140. -/
def calling : Emitter where
  cfg := ⟨fun a => [(0x100, 0x03e08025),  -- or $16, $31, $0
    (0x104, 0x0c000050),                  -- jal 0x140
    (0x108, 0),
    (0x10c, 0x0200f825),                  -- or $31, $16, $0
    (0x110, 0x03e00008),                  -- jr $31
    (0x114, 0),
    (0x140, 0x03e00008),                  -- jr $31
    (0x144, 0x24020001)].lookup a,        -- addiu $2, $0, 1
    fun _ => none⟩
  fp := .zero
  decls f := f = 0x100 ∨ f = 0x140

def callingFunc : Func where
  entry := 0x100
  leaf := false
  blocks := [(0x100, ⟨0x100, 0x10c, [0x10c], true, false, false, false, false, false⟩),
    (0x10c, ⟨0x10c, 0x118, [], false, true, false, false, false, false⟩)]
  calls := [0x140]
  indirectSites := []
  unresolvedCalls := 0
  nInsns := 6

def callingCalls : Calls where
  translated entry s s' r := entry = 0x140 ∧
    Relation.ReflTransGen (Step calling (leafFunc 0x140 0x148) noCalls)
      ((leafFunc 0x140 0x148).start 0x140 s) (.returned s' r)
  interp _ _ _ _ := False

def callingState : Mach := { Mach.zero with gpr := fun r => if r = 31 then 0x200 else 0 }

theorem calling_callee {s s' : Mach} {r : Word} (h : Relation.ReflTransGen
      (Step calling (leafFunc 0x140 0x148) noCalls) ((leafFunc 0x140 0x148).start 0x140 s)
      (.returned s' r)) : r = 0 ∧ Same (s.setGPR none 2 1) s' := by
  let b : Block := ⟨0x140, 0x148, [], false, true, false, false, false, false⟩
  let f : Frame := Frame.reloadGPRs ⟨s, s.gpr⟩
  let f' : Frame := ⟨f.m.setGPR none 2 1, f.saved⟩
  have hw : calling.emitWord (leafFunc 0x140 0x148) b 0x140 f = .leave f' 0 := rfl
  rcases Relation.ReflTransGen.cases_head h with heq | ⟨y, hxy, hy⟩
  · cases heq
  · obtain rfl := hxy.of_leave hw
    rcases Relation.ReflTransGen.cases_head hy with heq | ⟨z, hyz, hz⟩
    · cases heq
    · cases hyz
      rcases Relation.ReflTransGen.cases_head hz with heq | ⟨z', hzz, -⟩
      · cases heq
        exact ⟨rfl, ((start_same s).setGPR 2 1).trans (spillGPRs_state f')⟩
      · cases hzz

def callingBlock : Block := ⟨0x100, 0x10c, [0x10c], true, false, false, false, false, false⟩

def callingBlock' : Block := ⟨0x10c, 0x118, [], false, true, false, false, false, false⟩

def callingFrame : Frame := Frame.reloadGPRs ⟨callingState, callingState.gpr⟩

def callingFrame₁ : Frame :=
  ⟨callingFrame.m.setGPR none 16 (callingFrame.m.getGPR 31 ||| 0), callingFrame.saved⟩

def callingFrame₂ : Frame := (callingFrame₁.link 0x10c).spillGPRs

def calledFrame (s : Mach) : Frame := (callingFrame₂.resume s).reloadGPRs

def calledFrame₁ (s : Mach) : Frame :=
  ⟨(calledFrame s).m.setGPR none 31 ((calledFrame s).m.getGPR 16 ||| 0), (calledFrame s).saved⟩

theorem calling_word₀ :
    calling.emitWord callingFunc callingBlock 0x100 callingFrame = .word callingFrame₁ := rfl

theorem calling_call : calling.emitWord callingFunc callingBlock 0x104 callingFrame₁ =
    .call callingFrame₂ (some 0x140) 0x140 0x10c false := rfl

theorem calling_word₁ (s : Mach) : calling.emitWord callingFunc callingBlock' 0x10c (calledFrame s) =
    .word (calledFrame₁ s) := rfl

theorem calling_leave (s : Mach) : calling.emitWord callingFunc callingBlock' 0x110 (calledFrame₁ s) =
    .leave (calledFrame₁ s) 0 := rfl

inductive CallingAt : Config → Prop
  | entry : CallingAt (.inside callingBlock 0x100 callingFrame)
  | call : CallingAt (.inside callingBlock 0x104 callingFrame₁)
  | called {s : Mach} (h : Same (callingFrame₂.state.setGPR none 2 1) s) :
      CallingAt (.inside callingBlock' 0x10c (calledFrame s))
  | last {s : Mach} (h : Same (callingFrame₂.state.setGPR none 2 1) s) :
      CallingAt (.inside callingBlock' 0x110 (calledFrame₁ s))
  | leaving {f : Frame} {r : Word} : CallingAt (.leaving f r)
  | returned {s : Mach} {r : Word} : CallingAt (.returned s r)

theorem calling_does {s : Mach}
    (h : callingCalls.Does (some 0x140) 0x140 0x10c callingFrame₂.state s) :
    Same (callingFrame₂.state.setGPR none 2 1) s := by
  obtain ⟨s1, r, ⟨-, hrun⟩, hfix⟩ := h
  obtain ⟨rfl, hs⟩ := calling_callee hrun
  rw [if_pos rfl] at hfix
  exact hfix ▸ hs

theorem CallingAt.step (hx : CallingAt x) (h : Step calling callingFunc callingCalls x y) :
    CallingAt y := by
  cases hx with
  | entry =>
    rw [h.of_word calling_word₀]
    exact .call
  | call =>
    obtain ⟨s, hdoes, rfl⟩ := h.of_call calling_call
    exact .called (calling_does hdoes)
  | called hs =>
    rw [h.of_word (calling_word₁ _)]
    exact .last hs
  | last hs =>
    rw [h.of_leave (calling_leave _)]
    exact .leaving
  | leaving =>
    cases h
    exact .returned
  | returned => cases h

end RspBt.R4300
