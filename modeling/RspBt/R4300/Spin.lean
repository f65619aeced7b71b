import RspBt.R4300.CfgEdges
import RspBt.R4300.EmitBody

namespace RspBt.R4300

open Lib

theorem isCtl_of_decode {pc insn : Word} (hf : (decode pc insn).k ≠ .fall)
    (ht : (decode pc insn).k ≠ .trap) : isCtl insn = true := by
  unfold decode at hf ht
  unfold isCtl
  rw [decide_eq_true_eq]
  dsimp only at hf ht
  split at hf
  case h_1 hop =>
    simp only [hop] at ht
    split at hf
    case h_3 hfn => simp [hfn] at ht
    case h_4 hfn => simp [hfn] at ht
    case h_5 => exact absurd rfl hf
    all_goals simp [*]
  case h_13 hop =>
    by_cases hrs : insn.rs = 0x08
    · simp [hop, hrs]
    · rw [if_neg hrs] at hf
      exact absurd rfl hf
  case h_14 => exact absurd rfl hf
  all_goals simp [*]

theorem emitOne_trap {pc insn : Word} {fp : FpUnit} (h : (decode pc insn).k = .trap) :
    isCtl insn = false ∧ emitOne fp insn = none := by
  unfold decode at h
  dsimp only at h
  split at h
  case h_1 hop =>
    split at h
    case h_3 hfn => simp [isCtl, emitOne, emitSpecial, hop, hfn]
    case h_4 hfn => simp [isCtl, emitOne, emitSpecial, hop, hfn]
    all_goals cases h
  all_goals try split_ifs at h
  all_goals cases h

inductive Leaves (t : Emitter) (gf : Func) (c : Calls) (r : Word) : Config → Prop
  | returned (s : Mach) : Leaves t gf c r (.returned s r)
  | step {x : Config} (hex : ∃ y, Step t gf c x y) (h : ∀ y, Step t gf c x y → Leaves t gf c r y) :
      Leaves t gf c r x

def Config.addr : Config → Option Word
  | .inside _ pc _ => some pc
  | .leaving _ r => some r
  | .returned .. => none

def Config.Emits (t : Emitter) : Config → Prop
  | .inside b pc _ => pc < b.end_ ∧ ∃ insn, t.cfg.read pc = some insn ∧
      (isCtl insn ∨ emitOne t.fp insn ≠ none)
  | _ => False

def Quiet (t : Emitter) (gf : Func) (c : Calls) (x y : Config) : Prop :=
  Step t gf c x y ∧ ¬ x.Emits t

/-- The code never spins where there is nothing to read. -/
structure NoSpin (t : Emitter) (gf : Func) (c : Calls) (entry : Word) : Prop where
  leaves : ∀ s x a, Relation.ReflTransGen (Step t gf c) (gf.start entry s) x → x.addr = some a →
    t.cfg.read a = none → Leaves t gf c a x
  cycles : ∀ b pc f f', ¬ Relation.TransGen (Quiet t gf c) (.inside b pc f) (.inside b pc f')
  empty : ∀ s b, (s, b) ∈ gf.blocks → b.start = b.end_ → ∀ f x,
    Step t gf c (.inside b b.start f) x → ∃ f' r, x = .leaving f' r

/-- The straight-line code of a target goes round memory and ends where it began. -/
def Env.Round (e : Env) (entry s : Word) : Prop :=
  e.Target entry s ∧ ∃ k stop, 0 < k ∧ e.Cut (e.Bound entry) s k stop ∧ stop.past (nth s k) = s

variable {t : Emitter} {entry s : Word} {p : Pass1} {gf : Func} {b : Block} {c : Calls}

/-- The block of a target with nothing to read is empty, and no other is, unless its code goes
round memory. -/
theorem Built.empty_iff (h : Built t.cfg entry p gf) :
    (∀ s b, (s, b) ∈ gf.blocks → b.start ≠ b.end_) ↔
      (∀ a, t.cfg.Target entry a → t.cfg.read a ≠ none) ∧ ∀ a, ¬ t.cfg.Round entry a := by
  constructor
  · intro hne
    refine ⟨fun a ha hr => ?_, ?_⟩
    -- the scan of a word that cannot be read stops at once
    · obtain ⟨b, hb⟩ := h.block ha
      obtain ⟨k, stop, hc, hstart, hend⟩ := h.scan hb
      have hself : t.cfg.Cut (t.cfg.Bound entry) a 0 .unread :=
        ⟨fun i hi => absurd hi (Nat.not_lt_zero i), fun i _ hi => absurd hi (Nat.not_lt_zero i),
          by rwa [nth_zero], fun h0 => absurd h0 (Nat.lt_irrefl 0), fun _ => by simp⟩
      obtain ⟨rfl, rfl⟩ := hc.unique hself
      rw [nth_zero] at hend
      exact hne a b hb (hstart.trans hend.symm)
    · rintro a ⟨ha, k, stop, -, hc, hround⟩
      obtain ⟨b, hb⟩ := h.block ha
      obtain ⟨k', stop', hc', hstart, hend⟩ := h.scan hb
      obtain ⟨rfl, rfl⟩ := hc'.unique hc
      exact hne a b hb (hstart.trans (hend.trans hround).symm)
  · rintro ⟨hread, hround⟩ s b hb heq
    have hs := h.target hb
    obtain ⟨k, stop, hc, hstart, hend⟩ := h.scan hb
    rw [hstart, hend] at heq
    rcases Nat.eq_zero_or_pos k with rfl | hk
    · rw [nth_zero] at heq
      cases stop with
      | unread => exact hc.not_unread hs (hread s hs)
      | bound => exact hc.first rfl rfl
      | trap =>
        simp only [Stop.past] at heq
        bv_omega
      | control =>
        simp only [Stop.past] at heq
        bv_omega
    · exact hround s ⟨hs, k, stop, hk, hc, heq.symm⟩

def Config.Scanned (e : Env) (entry : Word) (gf : Func) : Config → Prop
  | .inside b pc _ => ∃ s i k stop, (s, b) ∈ gf.blocks ∧ e.Cut (e.Bound entry) s k stop ∧
      b.end_ = stop.past (nth s k) ∧ pc = nth s i ∧ i ≤ k
  | _ => True

theorem Func.mem_of_lookup (h : gf.blocks.lookup s = some b) : (s, b) ∈ gf.blocks := by
  obtain ⟨l₁, l₂, heq, -⟩ := List.lookup_eq_some_iff.mp h
  rw [heq]
  exact List.mem_append_right _ (List.mem_cons_self ..)

theorem Func.blockFor_cases (gf : Func) (a : Word) (f : Frame) :
    (∃ b, (a, b) ∈ gf.blocks ∧ gf.blockFor a f = .inside b b.start f) ∨
      (a ∉ gf.blocks.map Prod.fst ∧ gf.blockFor a f = .leaving f.spillGPRs a) := by
  unfold blockFor
  cases h : gf.blocks.lookup a with
  | some b => exact .inl ⟨b, mem_of_lookup h, rfl⟩
  | none =>
    refine .inr ⟨fun hmem => ?_, rfl⟩
    obtain ⟨x, hx, rfl⟩ := List.mem_map.mp hmem
    have hne := List.lookup_eq_none_iff.mp h x hx
    simp at hne

theorem Built.scanned_blockFor (h : Built t.cfg entry p gf) (a : Word) (f : Frame) :
    (gf.blockFor a f).Scanned t.cfg entry gf := by
  rcases gf.blockFor_cases a f with ⟨b, hb, heq⟩ | ⟨-, heq⟩
  · rw [heq]
    obtain ⟨k, stop, hcut, hstart, hend⟩ := h.scan hb
    exact ⟨a, 0, k, stop, hb, hcut, hend, by rw [hstart, nth_zero], Nat.zero_le k⟩
  · rw [heq]
    trivial

theorem Emitter.emitCtl_ne_word {pc insn : Word} {f f' : Frame} :
    t.emitCtl gf b pc insn f ≠ .word f' := by
  intro h
  unfold emitCtl at h
  cases hs : t.cfg.read (pc + 4) with
  | none =>
    simp only [hs] at h
    cases h
  | some slot =>
    simp only [hs] at h
    by_cases hop : insn.op = 0x01 ∧ 3 < insn.rt
    · rw [if_pos hop] at h
      cases h
    · rw [if_neg hop] at h
      cases hslot : t.emitSlot slot with
      | none =>
        simp only [hslot] at h
        cases h
      | some code =>
        simp only [hslot, emitLeave] at h
        repeat' split at h
        all_goals cases h

/-- Code goes on inside a block only past a word that falls through. -/
theorem Emitter.emitWord_word {pc : Word} {f f' : Frame} (h : t.emitWord gf b pc f = .word f') :
    pc < b.end_ ∧ ∃ insn, t.cfg.read pc = some insn ∧ isCtl insn = false ∧
      emitOne t.fp insn ≠ none := by
  unfold emitWord at h
  split_ifs at h with hpc
  refine ⟨hpc, ?_⟩
  cases hr : t.cfg.read pc with
  | none =>
    simp only [hr] at h
    cases h
  | some insn =>
    simp only [hr] at h
    refine ⟨insn, rfl, ?_⟩
    split_ifs at h with hctl
    · exact absurd h emitCtl_ne_word
    · refine ⟨Bool.eq_false_iff.mpr hctl, fun hone => ?_⟩
      simp only [hone] at h
      cases h

theorem Emitter.emitWord_quiet {pc : Word} {f : Frame} (hpc : pc < b.end_)
    (h : ¬ (Config.inside b pc f).Emits t) : t.emitWord gf b pc f = .leave f pc := by
  unfold emitWord
  rw [if_pos hpc]
  cases hr : t.cfg.read pc with
  | none => rfl
  | some insn =>
    have hctl : ¬ isCtl insn = true := fun hctl => h ⟨hpc, insn, hr, .inl hctl⟩
    have hone : emitOne t.fp insn = none := by
      by_contra hne
      exact h ⟨hpc, insn, hr, .inr hne⟩
    simp only [if_neg hctl, hone]

theorem Step.scanned (h : Built t.cfg entry p gf) {x y : Config}
    (hx : x.Scanned t.cfg entry gf) (hxy : Step t gf c x y) : y.Scanned t.cfg entry gf := by
  cases hxy with
  | branch | call => exact h.scanned_blockFor _ _
  | leave | tailCall | exit => trivial
  | word hw =>
    obtain ⟨s, i, k, stop, hb, hcut, hend, rfl, hik⟩ := hx
    obtain ⟨hlt, insn, hr, hctl, hone⟩ := Emitter.emitWord_word hw
    refine ⟨s, i + 1, k, stop, hb, hcut, hend, (nth_succ s i).symm, ?_⟩
    rcases hik.lt_or_eq with hlt' | rfl
    · exact hlt'
    · -- where the scan stopped, no code goes on
      exfalso
      cases stop with
      | unread =>
        have hu : t.cfg.read (nth s i) = none := hcut.stops
        rw [hr] at hu
        cases hu
      | bound =>
        rw [hend] at hlt
        exact BitVec.lt_irrefl _ hlt
      | trap =>
        obtain ⟨insn', hr', hk⟩ := hcut.stops
        obtain rfl := Option.some.inj (hr.symm.trans hr')
        exact hone (emitOne_trap hk).2
      | control ctl =>
        obtain ⟨insn', hr', rfl, hf, ht⟩ := hcut.stops
        obtain rfl := Option.some.inj (hr.symm.trans hr')
        rw [isCtl_of_decode hf ht] at hctl
        cases hctl

/-- Every run stays inside the scans. -/
theorem Built.scanned_run (h : Built t.cfg entry p gf) {m : Mach} {x : Config}
    (hx : Relation.ReflTransGen (Step t gf c) (gf.start entry m) x) :
    x.Scanned t.cfg entry gf := by
  induction hx with
  | refl => exact h.scanned_blockFor _ _
  | tail _ hstep ih => exact hstep.scanned h ih

theorem leaves_leaving (t : Emitter) (gf : Func) (c : Calls) (f : Frame) (r : Word) :
    Leaves t gf c r (.leaving f r) := by
  refine .step ⟨_, .exit⟩ fun y hy => ?_
  cases hy
  exact .returned _

theorem Step.of_end {pc : Word} {f : Frame} {y : Config} (hpc : ¬ pc < b.end_)
    (h : Step t gf c (.inside b pc f) y) : y = gf.blockFor b.end_ f := by
  have hend : t.emitWord gf b pc f = .branch f b.end_ := if_neg hpc
  cases h with
  | branch h =>
    rw [hend] at h
    cases h
    rfl
  | word h | leave h | call h | tailCall h =>
    rw [hend] at h
    cases h

theorem Step.of_leave {pc r : Word} {f f' : Frame} {y : Config}
    (hw : t.emitWord gf b pc f = .leave f' r) (h : Step t gf c (.inside b pc f) y) :
    y = .leaving f' r := by
  cases h with
  | leave h =>
    rw [hw] at h
    cases h
    rfl
  | word h | branch h | call h | tailCall h =>
    rw [hw] at h
    cases h

/-- Control leaves from an address with nothing to read, where no transfer leads to it. -/
theorem Built.leaves (h : Built t.cfg entry p gf)
    (hread : ∀ a, t.cfg.Target entry a → t.cfg.read a ≠ none) {x : Config} {a : Word}
    (hx : x.Scanned t.cfg entry gf) (ha : x.addr = some a) (hu : t.cfg.read a = none) :
    Leaves t gf c a x := by
  cases x with
  | returned s r => cases ha
  | leaving f r =>
    obtain rfl := Option.some.inj ha
    exact leaves_leaving t gf c f r
  | inside b pc f =>
    obtain rfl := Option.some.inj ha
    obtain ⟨s, i, k, stop, hb, hcut, hend, rfl, hik⟩ := hx
    have hs := h.target hb
    -- the scan found nothing to read: it is at a bound, where no block begins
    obtain rfl : i = k := by
      by_contra hne
      exact Env.not_falls_of_unread hu (hcut.run i (by omega))
    obtain rfl : stop = .bound := by
      cases stop with
      | bound => rfl
      | unread => exact (hcut.not_unread hs (hread s hs)).elim
      | trap => exact absurd hu hcut.stops.read
      | control => exact absurd hu hcut.stops.read
    have hpc : ¬ nth s i < b.end_ := by
      rw [hend]
      exact BitVec.lt_irrefl _
    have hout : gf.blockFor b.end_ f = .leaving f.spillGPRs (nth s i) := by
      rw [hend]
      rcases gf.blockFor_cases (nth s i) f with ⟨b', hb', -⟩ | ⟨-, heq⟩
      · exact absurd hu (hread _ (h.target hb'))
      · exact heq
    refine .step ⟨_, .branch (if_neg hpc)⟩ fun y hy => ?_
    rw [hy.of_end hpc, hout]
    exact leaves_leaving t gf c _ _

/-- A step through no instruction, to the code of a block, is the branch that closes one. -/
theorem Built.quiet (h : Built t.cfg entry p gf) {pc pc' : Word} {f f' : Frame} {b' : Block}
    (hq : Quiet t gf c (.inside b pc f) (.inside b' pc' f')) :
    b.end_ ≤ pc ∧ pc' = b.end_ ∧ b'.start = b.end_ ∧ (b.end_, b') ∈ gf.blocks := by
  obtain ⟨hstep, hquiet⟩ := hq
  have hpc : ¬ pc < b.end_ := by
    intro hlt
    cases hstep.of_leave (Emitter.emitWord_quiet hlt hquiet)
  have heq := hstep.of_end hpc
  rcases gf.blockFor_cases b.end_ f with ⟨b'', hb, hto⟩ | ⟨-, hto⟩
  · rw [hto] at heq
    cases heq
    obtain ⟨-, -, -, hstart, -⟩ := h.scan hb
    exact ⟨BitVec.not_lt.mp hpc, hstart, hstart, hb⟩
  · rw [hto] at heq
    cases heq

/-- Through blocks without an instruction, addresses only go down. -/
theorem Built.quiet_descends (h : Built t.cfg entry p gf) {x y : Config}
    (hxy : Relation.TransGen (Quiet t gf c) x y) {pc pc' : Word} {f f' : Frame} {b' : Block}
    (hx : x = .inside b pc f) (hy : y = .inside b' pc' f') :
    b.end_ ≤ pc ∧ pc' ≤ b.end_ ∧ b'.start = pc' ∧ (pc', b') ∈ gf.blocks := by
  induction hxy generalizing b' pc' f' with
  | single hq =>
    subst hx hy
    obtain ⟨hle, rfl, hstart, hb⟩ := h.quiet hq
    exact ⟨hle, BitVec.le_refl _, hstart, hb⟩
  | @tail z _ _ hq ih =>
    subst hy
    cases z with
    | inside b₁ pc₁ f₁ =>
      obtain ⟨hle, hle₁, -, -⟩ := ih rfl
      obtain ⟨hle₂, rfl, hstart, hb⟩ := h.quiet hq
      exact ⟨hle, BitVec.le_trans hle₂ hle₁, hstart, hb⟩
    | leaving => cases hq.1
    | returned => cases hq.1

/-- The code never spins where there is nothing to read, and an empty block is an exit, exactly
when every address a transfer leads to can be read and no code goes round memory. -/
theorem emit_noSpin_iff {n : ℕ} {log : Log} (hbuild : build t.cfg n entry = some (gf, log)) :
    NoSpin t gf c entry ↔
      (∀ a, t.cfg.Target entry a → t.cfg.read a ≠ none) ∧ ∀ a, ¬ t.cfg.Round entry a := by
  obtain ⟨p, h, -⟩ := build_spec hbuild
  rw [← h.empty_iff]
  constructor
  · intro hns s b hb heq
    have hstart : b.start = s := by
      obtain ⟨k, stop, -, hstart, -⟩ := h.scan hb
      exact hstart
    let f : Frame := ⟨.zero, fun _ => 0⟩
    have hstep : Step t gf c (.inside b b.start f) (gf.blockFor b.end_ f) :=
      .branch (if_neg (by rw [heq]; exact BitVec.lt_irrefl _))
    obtain ⟨f', r, hout⟩ := hns.empty s b hb heq _ _ hstep
    rcases gf.blockFor_cases b.end_ f with ⟨b', -, hto⟩ | ⟨hno, -⟩
    · rw [hto] at hout
      cases hout
    · apply hno
      rw [← heq, hstart]
      exact List.mem_map_of_mem hb
  · intro hne
    have hread := (h.empty_iff.mp hne).1
    refine ⟨fun s x a hx ha hu => ?_, fun b pc f f' hcyc => ?_, fun s b hb heq => ?_⟩
    · exact h.leaves hread (h.scanned_run hx) ha hu
    · obtain ⟨hle, hle', hstart, hb⟩ := h.quiet_descends hcyc rfl rfl
      exact hne _ b hb (hstart.trans (BitVec.le_antisymm hle' hle))
    · exact absurd heq (hne s b hb)

/-- A jump to where nothing is mapped. -/
def unmappedJump : Env where
  read a := if a = 0 then some 0x08000040 else if a = 4 then some 0 else none
  hints _ := none

def unmappedJumpFunc : Func where
  entry := 0
  leaf := true
  blocks := [(0, ⟨0, 8, [0x100], false, false, false, false, false, false⟩),
    (0x100, ⟨0x100, 0x100, [0x100], false, false, false, false, false, false⟩)]
  calls := []
  indirectSites := []
  unresolvedCalls := 0
  nInsns := 2

theorem build_unmappedJump : build unmappedJump 8 0 =
    some (unmappedJumpFunc, ⟨[(0x100, "unmapped instruction")], 0, 0, 0⟩) := rfl

theorem emit_noSpin_iff_unmappedJump :
    NoSpin ⟨unmappedJump, .zero, fun _ => false⟩ unmappedJumpFunc
        ⟨fun _ _ _ _ => False, fun _ _ _ _ => False⟩ 0 ↔
      (∀ a, unmappedJump.Target 0 a → unmappedJump.read a ≠ none) ∧
        ∀ a, ¬ unmappedJump.Round 0 a :=
  @emit_noSpin_iff ⟨unmappedJump, .zero, fun _ => false⟩ 0 unmappedJumpFunc
    ⟨fun _ _ _ _ => False, fun _ _ _ _ => False⟩ 8 _ build_unmappedJump

/-- A configuration that only leads to itself never returns. -/
theorem not_leaves_of_loop {t : Emitter} {gf : Func} {c : Calls} {r : Word} {x : Config}
    (hx : Step t gf c x x) : ¬ Leaves t gf c r x := by
  intro h
  have hne : ∀ y, Leaves t gf c r y → y = x → False := by
    intro y hy
    induction hy with
    | returned s =>
      rintro rfl
      cases hx
    | step _ _ ih =>
      rintro rfl
      exact ih _ hx rfl
  exact hne x h rfl

/-- The jump is taken, and at its target the code goes round for ever. -/
theorem not_emit_noSpin : ∃ gf log, build unmappedJump 8 0 = some (gf, log) ∧
    unmappedJump.read 0x100 = none ∧ ∀ fp decls c s, ∃ b f,
      Relation.ReflTransGen (Step ⟨unmappedJump, fp, decls⟩ gf c) (gf.start 0 s)
        (.inside b 0x100 f) ∧
      Quiet ⟨unmappedJump, fp, decls⟩ gf c (.inside b 0x100 f) (.inside b 0x100 f) ∧
      ∀ r, ¬ Leaves ⟨unmappedJump, fp, decls⟩ gf c r (.inside b 0x100 f) := by
  refine ⟨_, _, build_unmappedJump, rfl, fun fp decls c s => ?_⟩
  let t : Emitter := ⟨unmappedJump, fp, decls⟩
  let b : Block := ⟨0, 8, [0x100], false, false, false, false, false, false⟩
  let b' : Block := ⟨0x100, 0x100, [0x100], false, false, false, false, false, false⟩
  let f : Frame := Frame.reloadGPRs ⟨s, s.gpr⟩
  let f' : Frame := f.run (fun _ m => m) none
  have hjump : Step t unmappedJumpFunc c (.inside b 0 f) (unmappedJumpFunc.blockFor 0x100 f') :=
    .branch rfl
  have hself : Step t unmappedJumpFunc c (.inside b' 0x100 f')
      (unmappedJumpFunc.blockFor 0x100 f') := .branch rfl
  have hquiet : ¬ (Config.inside b' 0x100 f').Emits t := fun h => BitVec.lt_irrefl _ h.1
  exact ⟨b', f', .single hjump, ⟨hself, hquiet⟩, fun r => not_leaves_of_loop hself⟩

end RspBt.R4300
