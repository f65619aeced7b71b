import RspBt.R4300.Finishes

namespace RspBt.R4300

open Lib

variable {t : Emitter} {gf : Func} {b : Block} {pc insn entry : Word} {f f' : Frame} {p : Pass1}

/-- Code of a block stands at words that are reached. -/
theorem Built.reached_inside (h : Built t.cfg entry p gf)
    (hx : (Config.inside b pc f).Scanned t.cfg entry gf) : t.cfg.Reached entry pc := by
  obtain ⟨s, i, k, stop, hb, hcut, -, rfl, hik⟩ := hx
  exact Env.Run.reached (fun j hj => hcut.run j (by omega)) (h.target hb).reached

/-- How a call is made: a jal of a translated function directly, and a jalr by comparing its target
with those that were seen. -/
inductive Site (t : Emitter) (pc : Word) (direct : Option Word) (target : Word) : Prop
  | jal {insn : Word} (hr : t.cfg.read pc = some insn) (h3 : insn.op = 0x03)
      (hto : target = (pc &&& 0xf0000000) ||| ((insn &&& 0x3ffffff) <<< 2))
      (hd : direct = t.direct target)
  | jalr {insn : Word} (hr : t.cfg.read pc = some insn) (h0 : insn.op = 0x00) (h9 : insn.fn = 0x09)
      (hd : direct = (t.cfg.hints pc).bind (t.indirect target))

/-- Every call of a function is one of its links: there are no tail calls. -/
theorem Built.site (h : Built t.cfg entry p gf) (hx : (Config.inside b pc f).Scanned t.cfg entry gf)
    {direct : Option Word} {target link : Word} {tail : Bool}
    (hw : t.emitWord gf b pc f = .call f' direct target link tail) :
    tail = false ∧ Site t pc direct target := by
  unfold Emitter.emitWord at hw
  split_ifs at hw with hlt
  cases hr : t.cfg.read pc with
  | none =>
    simp only [hr] at hw
    cases hw
  | some insn =>
    simp only [hr] at hw
    split_ifs at hw with hctl
    · rcases t.emitCtl_cases gf b pc insn f with heq | ⟨slot, -, -, ⟨-, heq⟩ | ⟨code, -, heq⟩⟩
      · rw [heq] at hw
        cases hw
      · rw [heq] at hw
        cases hw
      · rw [heq] at hw
        by_cases hlink : isLink insn = true
        · have hop : insn.op = 0x03 ∨ insn.op = 0x00 ∧ insn.fn = 0x09 := by
            simpa [isLink] using hlink
          rcases hop with h3 | ⟨h0, h9⟩
          · rw [t.emitLeave_jal gf b pc _ _ _ h3] at hw
            cases hw
            exact ⟨rfl, .jal hr h3 rfl rfl⟩
          · rw [t.emitLeave_jalr gf b pc _ _ _ h0 h9] at hw
            cases hw
            exact ⟨rfl, .jalr hr h0 h9 rfl⟩
        -- a transfer that does not link calls nothing: a j stays among the blocks
        · exfalso
          rcases t.emitLeave_cases b _ hctl (fun hj => h.jump_mem hx hr hj f.m) with
            hout | ⟨d, hout⟩ | ⟨-, -, -, hout⟩ | hout
          · rw [hout] at hw
            cases hw
          · exact hlink (Emitter.isLink_of_emitLeave hout)
          · rw [hout] at hw
            cases hw
          · rw [hout] at hw
            cases hw
    · cases hone : emitOne t.fp insn with
      | none =>
        simp only [hone] at hw
        cases hw
      | some code =>
        simp only [hone] at hw
        cases hw

theorem Env.callsAt_jal {e : Env} (hr : e.read pc = some insn) (h3 : insn.op = 0x03) :
    e.CallsAt pc ((pc &&& 0xf0000000) ||| ((insn &&& 0x3ffffff) <<< 2)) := by
  have hdec : decode pc insn =
      ⟨.call, (pc &&& 0xf0000000) ||| ((insn &&& 0x3ffffff) <<< 2), 0⟩ := by
    simp only [decode, h3]
    rfl
  exact ⟨_, ⟨insn, hr, hdec, by simp, by simp⟩, .inl ⟨rfl, rfl⟩⟩

theorem Env.callsAt_jalr {e : Env} (hr : e.read pc = some insn) (h0 : insn.op = 0x00)
    (h9 : insn.fn = 0x09) {ts : List Word} {target : Word} (hh : e.hints pc = some ts)
    (ht : target ∈ ts) : e.CallsAt pc target := by
  have hdec : decode pc insn = ⟨.jalr, 0, insn.rs⟩ := by
    simp only [decode, h0, h9]
    rfl
  exact ⟨_, ⟨insn, hr, hdec, by simp, by simp⟩, .inr ⟨rfl, ts, hh, ht⟩⟩

theorem Emitter.indirect_of_mem {target : Word} {ts : List Word} (hdecl : t.decls target = true)
    (ht : target ∈ ts) : t.indirect target ts = some target := by
  cases hfind : t.indirect target ts with
  | none =>
    have hno := List.find?_eq_none.mp hfind target ht
    simp [hdecl] at hno
  | some x => rw [(Emitter.indirect_spec hfind).1]

/-- In every run of a translated function, with everything discovered translated: a jal is a direct
call of a translated function; a jalr is one when its target was seen there, and then of the
function at the target; and there are no other calls. -/
theorem translate_closed {e : Env} {fp : FpUnit} {n : ℕ} {roots entries : List Word} {c : Cfg}
    (hdisc : Cfg.discover e n roots = some c) (hall : ∀ g, (c.funcs g).isSome → g ∈ entries)
    (hgf : (translate e fp c entries).fns entry = some gf) {cs : Calls} {s : Mach}
    (hrun : Relation.ReflTransGen (Step (translate e fp c entries).emitter gf cs)
      (gf.start entry s) (.inside b pc f))
    {direct : Option Word} {target link : Word} {tail : Bool}
    (hw : (translate e fp c entries).emitter.emitWord gf b pc f =
      .call f' direct target link tail) :
    tail = false ∧ (∀ d ∈ direct, d = target ∧ (translate e fp c entries).have_ d = true) ∧
    ∃ insn, e.read pc = some insn ∧
      ((insn.op = 0x03 ∧ direct = some target) ∨
      (insn.op = 0x00 ∧ insn.fn = 0x09 ∧
        (direct = some target ↔ ∃ ts, e.hints pc = some ts ∧ target ∈ ts))) := by
  set bt := translate e fp c entries with hbt
  have hinv := Cfg.discover_inv hdisc
  have hfound : c.funcs entry = some gf := by
    simp only [hbt, translate] at hgf
    split_ifs at hgf
    exact hgf
  obtain ⟨log, hbuild⟩ := hinv.built entry gf hfound
  obtain ⟨pass, h, -⟩ := build_spec hbuild
  have hx : (Config.inside b pc f).Scanned e entry gf := h.scanned_run (t := bt.emitter) hrun
  have hreach : e.Reached entry pc := h.reached_inside (t := bt.emitter) hx
  obtain ⟨htail, hsite⟩ := h.site (t := bt.emitter) hx hw
  -- what is called where control comes was discovered, and so it is translated
  have hdecl {x : Word} (hc : e.CallsAt pc x) : bt.emitter.decls x = true := by
    have hmem := (build_calls hbuild x).mpr ⟨pc, hreach, hc⟩
    have hsome := (hinv.calls entry gf hfound x hmem).resolve_right List.not_mem_nil
    have hd := (mem_declare_iff c.funcs entries x).mpr ⟨hall x hsome, hsome⟩
    simpa [hbt, translate] using hd
  have hhave {x : Word} (hx : bt.emitter.decls x = true) : bt.have_ x = true := by
    have hmem : x ∈ declare c.funcs entries := by simpa [hbt, translate] using hx
    obtain ⟨-, hsome⟩ := (mem_declare_iff ..).mp hmem
    change (if x ∈ declare c.funcs entries then c.funcs x else none).isSome = true
    rw [if_pos hmem]
    exact hsome
  refine ⟨htail, fun d hd => ?_, ?_⟩
  · cases hsite with
    | jal _ _ _ heq =>
      have hdir : bt.emitter.direct target = some d := heq ▸ hd
      unfold Emitter.direct at hdir
      split_ifs at hdir with hto
      obtain rfl := Option.some.inj hdir
      exact ⟨rfl, hhave hto⟩
    | jalr _ _ _ heq =>
      obtain ⟨ts, -, hind⟩ := Option.bind_eq_some_iff.mp (heq ▸ hd : _ = some d)
      obtain ⟨rfl, hto⟩ := Emitter.indirect_spec hind
      exact ⟨rfl, hhave hto⟩
  · cases hsite with
    | @jal insn hr h3 hto heq =>
      refine ⟨insn, hr, .inl ⟨h3, ?_⟩⟩
      subst hto
      rw [heq]
      exact if_pos (hdecl (Env.callsAt_jal hr h3))
    | @jalr insn hr h0 h9 heq =>
      refine ⟨insn, hr, .inr ⟨h0, h9, ?_⟩⟩
      rw [heq]
      constructor
      · intro hd
        obtain ⟨ts, hh, hind⟩ := Option.bind_eq_some_iff.mp hd
        exact ⟨ts, hh, List.mem_of_find?_eq_some hind⟩
      · rintro ⟨ts, hh, hmem⟩
        refine Option.bind_eq_some_iff.mpr ⟨ts, hh, ?_⟩
        exact Emitter.indirect_of_mem (hdecl (Env.callsAt_jalr hr h0 h9 hh hmem)) hmem

theorem bailing_discovered (g : Word) (hg : (bailingCfg.funcs g).isSome) :
    g ∈ ([0x100, 0x140] : List Word) := by
  rcases (Cfg.record_isSome ..).mp hg with rfl | hg
  · decide
  · rcases (Cfg.record_isSome ..).mp hg with rfl | hg
    · decide
    · cases hg

/-- The call at 0x104. -/
theorem translate_closed_bailing : ∃ direct : Option Word,
    (∀ d ∈ direct, d = 0x140 ∧ bailingBt.have_ d = true) ∧
    ∃ insn, bailing.read 0x104 = some insn ∧
      ((insn.op = 0x03 ∧ direct = some 0x140) ∨
      (insn.op = 0x00 ∧ insn.fn = 0x09 ∧
        (direct = some 0x140 ↔ ∃ ts, bailing.hints 0x104 = some ts ∧ 0x140 ∈ ts))) := by
  let b : Block := ⟨0x100, 0x10c, [0x10c], true, false, false, false, false, false⟩
  let f : Frame := Frame.reloadGPRs ⟨bailingState, bailingState.gpr⟩
  let f' : Frame := ⟨f.m.setGPR none 16 (f.m.getGPR 31 ||| f.m.getGPR 0), f.saved⟩
  have hw : bailingBt.emitter.emitWord bailingCaller b 0x100 f = .word f' := rfl
  have hw' : bailingBt.emitter.emitWord bailingCaller b (0x100 + 4) f' =
      .call (f'.link 0x10c).spillGPRs (some 0x140) 0x140 0x10c false := rfl
  have hrun : Relation.ReflTransGen (Step bailingBt.emitter bailingCaller noCalls)
      (bailingCaller.start 0x100 bailingState) (.inside b (0x100 + 4) f') := .single (.word hw)
  obtain ⟨-, hd, hsite⟩ := translate_closed discover_bailing bailing_discovered rfl hrun hw'
  exact ⟨some 0x140, hd, hsite⟩

end RspBt.R4300
