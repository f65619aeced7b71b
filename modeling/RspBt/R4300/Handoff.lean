import RspBt.R4300.EmitOne
import RspBt.Rsp.DmaSpans
import RspBt.Rsp.Effect

namespace RspBt.R4300

open Lib Rsp

section

variable {ram ram' : ℕ → Byte} {a a' n : ℕ}

theorem loadBytes_eq (h : ∀ k < n, ram (a + k) = ram' (a' + k)) :
    loadBytes ram a n = loadBytes ram' a' n := by
  induction n with
  | zero => rfl
  | succ n ih =>
    rw [loadBytes, loadBytes, ih fun k hk => h k (by omega), h n (by omega)]

theorem loadBytes_storeBytes_le (v : BitVec (8 * n)) {k : ℕ} (hk : k ≤ n) :
    loadBytes (storeBytes ram a n v) a k = v.extractLsb' (8 * (n - k)) (8 * k) := by
  induction k with
  | zero => exact BitVec.eq_of_zero_length rfl
  | succ k ih =>
    have hbyte : storeBytes ram a n v (a + k) = v.extractLsb' (8 * (n - (k + 1))) 8 := by
      rw [storeBytes, if_pos (by omega)]
      congr 2
      omega
    rw [loadBytes, ih (by omega), hbyte]
    apply BitVec.eq_of_getLsbD_eq
    intro b hb
    change _ = (v.extractLsb' (8 * (n - (k + 1))) (8 * k + 8)).getLsbD b
    rw [BitVec.getLsbD_append, BitVec.getLsbD_extractLsb', BitVec.getLsbD_extractLsb',
      BitVec.getLsbD_extractLsb', decide_eq_true hb, Bool.true_and]
    split_ifs with hlow
    · rw [decide_eq_true hlow, Bool.true_and]
    · have hbit : 8 * (n - k) + (b - 8) = 8 * (n - (k + 1)) + b := by omega
      rw [decide_eq_true (by omega), Bool.true_and, hbit]

theorem loadBytes_storeBytes (ram : ℕ → Byte) (a : ℕ) (v : BitVec (8 * n)) :
    loadBytes (storeBytes ram a n v) a n = v := by
  rw [loadBytes_storeBytes_le v le_rfl, Nat.sub_self]
  exact BitVec.extractLsb'_eq_self

/-- The four bytes the RSP puts together are one such word. -/
theorem append_eq_loadBytes {b₀ b₁ b₂ b₃ : Byte} (h₀ : b₀ = ram a) (h₁ : b₁ = ram (a + 1))
    (h₂ : b₂ = ram (a + 2)) (h₃ : b₃ = ram (a + 3)) :
    b₀ ++ b₁ ++ b₂ ++ b₃ = loadBytes ram a 4 := by
  have hfirst : loadBytes ram a 1 = b₀ := by
    rw [h₀]
    exact BitVec.zero_width_append _ _
  rw [← hfirst, h₁, h₂, h₃]
  rfl

end

theorem dmemIdx_add {a : Word} {k : ℕ} (h : dmemIdx a + k < 0x1000) :
    dmemIdx (a + BitVec.ofNat 32 k) = dmemIdx a + k := by
  rw [dmemIdx_eq] at h
  rw [dmemIdx_eq, dmemIdx_eq, BitVec.toNat_add, BitVec.toNat_ofNat]
  omega

theorem rd32_eq_loadBytes (s : Rsp) {a : Word} (h : dmemIdx a + 4 ≤ 0x1000) :
    s.rd32 a = loadBytes s.mem (dmemIdx a) 4 := by
  have hbyte (k : ℕ) (hk : k < 4) : s.rd8 (a + BitVec.ofNat 32 k) = s.mem (dmemIdx a + k) := by
    rw [rd8, dmemIdx_add (by omega)]
  exact append_eq_loadBytes rfl (hbyte 1 (by omega)) (hbyte 2 (by omega)) (hbyte 3 (by omega))

theorem wr32_mem (s : Rsp) {a : Word} (h : dmemIdx a + 4 ≤ 0x1000) (v : Word) :
    (s.wr32 a v).mem = storeBytes s.mem (dmemIdx a) 4 v := by
  have hidx (k : ℕ) (hk : k < 4) : dmemIdx (a + BitVec.ofNat 32 k) = dmemIdx a + k :=
    dmemIdx_add (by omega)
  have h1 : dmemIdx (a + 1) = dmemIdx a + 1 := hidx 1 (by omega)
  have h2 : dmemIdx (a + 2) = dmemIdx a + 2 := hidx 2 (by omega)
  have h3 : dmemIdx (a + 3) = dmemIdx a + 3 := hidx 3 (by omega)
  funext b
  simp only [wr32, wr8, setMem, h1, h2, h3, Function.update_apply, storeBytes]
  split_ifs
  all_goals first | rfl | omega | (congr 1; omega)

theorem dmemIdx_le_of_span {s : Rsp} {x a : Word} {i j n : ℕ}
    (ha : dmemIdx a = (s.dmaSpan x i).near + j) (hj : j + n ≤ (s.dmaSpan x i).len) :
    dmemIdx a + n ≤ 0x1000 := by
  have hspan := s.dmaSpan_near_le x i
  have hidx := dmemIdx_lt a
  have hnear : s.dmaBank ≤ (s.dmaSpan x i).near := Nat.le_add_right _ _
  have hbank := s.dmaBank_cases
  omega

theorem fetch_eq_loadBytes (s : Rsp) (pc : Word) :
    fetch s.imem pc = loadBytes s.mem (0x1000 + (pc &&& 0xffc).toNat) 4 := by
  have hpc := Word.toNat_and_ffc pc
  have hbyte (k : ℕ) (hk : k < 4) : s.imem.byte ((pc &&& 0xffc).toNat + k) =
      s.mem (0x1000 + (pc &&& 0xffc).toNat + k) := by
    rw [Image.byte, imem, Fin.val_ofNat, Nat.mod_eq_of_lt (by omega), Nat.add_assoc]
  exact append_eq_loadBytes (hbyte 0 (by omega)) (hbyte 1 (by omega)) (hbyte 2 (by omega))
    (hbyte 3 (by omega))

def storedBytes (insn : Word) : ℕ :=
  match insn.op with
  | 0x28 => 1
  | 0x29 => 2
  | 0x2b | 0x39 => 4
  | 0x3f | 0x3d => 8
  | _ => 0

def Stores (insn : Word) (pred : Option Bool) (m : Mach) (b : ℕ) : Prop :=
  let pa := (guarded pred (physAddr (m.effAddr insn)) bitbucketPa).toNat
  pa ≤ b ∧ b < pa + storedBytes insn

section

variable {m : Mach} {insn : Word} {w : ℕ}

theorem ram_setGPR (m : Mach) (pred : Option Bool) (r : BitVec 5) (v : BitVec 64) :
    (m.setGPR pred r v).ram = m.ram := by
  unfold Mach.setGPR
  split_ifs <;> rfl

theorem ram_storeGuarded (m : Mach) (pred : Option Bool) (p : StatePtr w) (v : BitVec w) :
    (m.storeGuarded pred p v).ram = m.ram := by
  cases p <;> rfl

theorem ram_emitArith {fp : Fp w} {ptr : BitVec 5 → StatePtr w} {f : Emit}
    (h : emitArith fp ptr insn = some f) (pred : Option Bool) : (f pred m).ram = m.ram := by
  unfold emitArith at h
  simp only at h
  split at h
  case h_13 => cases h
  all_goals
    obtain rfl := Option.some.inj h
    exact ram_storeGuarded _ _ _ _

theorem ram_emitCop1 {fp : FpUnit} {f : Emit} (h : emitCop1 fp insn = some f)
    (pred : Option Bool) : (f pred m).ram = m.ram := by
  unfold emitCop1 at h
  split at h
  · obtain rfl := Option.some.inj h
    exact ram_setGPR _ _ _ _
  · obtain rfl := Option.some.inj h
    exact ram_storeGuarded _ _ _ _
  · split_ifs at h
    · obtain rfl := Option.some.inj h
      exact ram_storeGuarded _ _ _ _
    · exact ram_emitArith h pred
  · split_ifs at h
    · obtain rfl := Option.some.inj h
      exact ram_storeGuarded _ _ _ _
    · exact ram_emitArith h pred
  · split at h
    case h_3 => cases h
    all_goals
      obtain rfl := Option.some.inj h
      exact ram_storeGuarded _ _ _ _
  · cases h

theorem ram_emitSpecial {f : Emit} (h : emitSpecial insn = some f) (pred : Option Bool) :
    (f pred m).ram = m.ram := by
  unfold emitSpecial at h
  simp only at h
  split at h
  case h_23 => cases h
  all_goals obtain rfl := Option.some.inj h
  case h_14 | h_16 => exact ram_storeGuarded _ _ _ _
  case h_17 | h_18 => exact (ram_storeGuarded _ _ _ _).trans (ram_storeGuarded _ _ _ _)
  case h_19 | h_20 => exact (ram_storeGuarded _ _ _ _).trans (ram_storeGuarded _ _ _ _)
  all_goals exact ram_setGPR _ _ _ _

theorem ram_emitOne {fp : FpUnit} {f : Emit} (h : emitOne fp insn = some f) {pred : Option Bool}
    {b : ℕ} (hb : ¬ Stores insn pred m b) : (f pred m).ram b = m.ram b := by
  have hstore {n : ℕ} (hn : storedBytes insn = n) (v : BitVec (8 * n)) :
      (m.storeMem pred (m.effAddr insn) n v).ram b = m.ram b := by
    subst hn
    exact if_neg hb
  unfold emitOne at h
  simp only at h
  split at h
  case h_1 => rw [ram_emitSpecial h]
  case h_24 => rw [ram_emitCop1 h]
  case h_25 => cases h
  all_goals obtain rfl := Option.some.inj h
  case h_16 hop | h_17 hop | h_18 hop | h_19 hop => exact hstore (by simp only [storedBytes, hop]) _
  case h_22 hop | h_23 hop => exact hstore (by simp only [storedBytes, hop]) _
  case h_20 | h_21 => exact congrFun (ram_storeGuarded _ _ _ _) b
  all_goals exact congrFun (ram_setGPR _ _ _ _) b

end

def isWrLen (w : Word) : Prop := w.op = 0x10 ∧ w.rs = 4 ∧ w.rd = 3

theorem rdram_mtc0 {s s' : Rsp} {rd : BitVec 5} {y : Word} (h : s.mtc0 rd y = some s') {b : ℕ}
    (hb : rd = 3 → ¬ s.DmaTouches y false b) : s'.rdram b = s.rdram b := by
  unfold mtc0 at h
  split at h
  case h_15 => cases h
  all_goals obtain rfl := Option.some.inj h
  case h_3 => exact congrFun (dma_true _ _).2 b
  case h_4 => exact dma_rdram_of_not_touches (hb rfl)
  all_goals rfl

theorem rdram_switch {s : Rsp} {nextPc w : Word} {f : Flow} (h : s.switch nextPc w = some f)
    {b : ℕ} (hb : isWrLen w → ¬ s.DmaTouches (s.r w.rt) false b) : f.s.rdram b = s.rdram b := by
  have heffect := effect_switch h
  generalize f.s = s' at heffect
  cases heffect with
  | reg | vec | lanes | store => rfl
  | flags which x =>
    unfold setVflags
    split_ifs <;> rfl
  | cop0 hop hrs hmt => exact rdram_mtc0 hmt fun hrd => hb ⟨hop, hrs, hrd⟩

/-- The RSP and the R4300 over one guest memory. -/
structure Processors where
  rsp : Rsp
  cpu : Mach
  shared : rsp.rdram = cpu.ram

namespace Processors

def withCpu (p : Processors) (m : Mach) : Processors := ⟨{ p.rsp with rdram := m.ram }, m, rfl⟩

def withRsp (p : Processors) (s : Rsp) : Processors := ⟨s, { p.cpu with ram := s.rdram }, rfl⟩

variable {fp : FpUnit} {p q : Processors} {msg : ℕ → Prop} {x v : Word} {i j n : ℕ}
  {ea : BitVec 64}

/-- Instructions of the two, and transfers and status writes that the R4300 asks for, in any
order; none of them writes a byte of `msg` in guest memory. -/
inductive Step (fp : FpUnit) (msg : ℕ → Prop) (p : Processors) : Processors → Prop
  | cpu {insn : Word} {f : Emit} (pred : Option Bool) (h : emitOne fp insn = some f)
      (hmsg : ∀ b, msg b → ¬ Stores insn pred p.cpu b) : Step fp msg p (p.withCpu (f pred p.cpu))
  | rsp {nextPc w : Word} {f : Flow} (h : p.rsp.switch nextPc w = some f)
      (hmsg : isWrLen w → ∀ b, msg b → ¬ p.rsp.DmaTouches (p.rsp.r w.rt) false b) :
      Step fp msg p (p.withRsp f.s.zeroR0)
  | reg {rd : BitVec 5} {y : Word} {s : Rsp} (h : p.rsp.mtc0 rd y = some s)
      (hmsg : rd = 3 → ∀ b, msg b → ¬ p.rsp.DmaTouches y false b) : Step fp msg p (p.withRsp s)

/-- No step of the two writes to the message. -/
theorem Step.ram {b : ℕ} (h : Step fp msg p q) (hb : msg b) : q.cpu.ram b = p.cpu.ram b := by
  cases h with
  | cpu pred h hmsg => exact ram_emitOne h (hmsg b hb)
  | rsp h hmsg => exact (rdram_switch h fun hw => hmsg hw b hb).trans (congrFun p.shared b)
  | reg h hmsg => exact (rdram_mtc0 h fun hrd => hmsg hrd b hb).trans (congrFun p.shared b)

theorem ram_steps {b : ℕ} (h : Relation.ReflTransGen (Step fp msg) p q) (hb : msg b) :
    q.cpu.ram b = p.cpu.ram b := by
  induction h with
  | refl => rfl
  | tail _ hstep ih => rw [hstep.ram hb, ih]

def Bytes (ea : BitVec 64) (n b : ℕ) : Prop :=
  (physAddr ea).toNat ≤ b ∧ b < (physAddr ea).toNat + n

theorem loadMem_steps (h : Relation.ReflTransGen (Step fp (Bytes ea n)) p q) :
    q.cpu.loadMem ea n = p.cpu.loadMem ea n := by
  refine loadBytes_eq fun k hk => ram_steps h ?_
  unfold Bytes
  omega

/-- A transfer to the RSP brings what the R4300 would load. -/
theorem loadBytes_dma_true (h : p.rsp.InLastLap x i) (hi : i < dmaCount x)
    (hea : (physAddr ea).toNat = (p.rsp.dmaSpan x i).far + j)
    (hj : j + n ≤ (p.rsp.dmaSpan x i).len) :
    loadBytes (p.rsp.dma x true).mem ((p.rsp.dmaSpan x i).near + j) n = p.cpu.loadMem ea n := by
  refine loadBytes_eq fun k hk => ?_
  have hbyte := dma_true_mem_apply h hi (show j + k < (p.rsp.dmaSpan x i).len by omega)
  rw [hea, ← p.shared, Nat.add_assoc, Nat.add_assoc]
  exact hbyte

/-- A transfer to guest memory brings what the RSP would load. -/
theorem loadMem_dma_false (hi : i < dmaCount x)
    (hea : (physAddr ea).toNat = (p.rsp.dmaSpan x i).far + j)
    (hj : j + n ≤ (p.rsp.dmaSpan x i).len) :
    (p.withRsp (p.rsp.dma x false)).cpu.loadMem ea n =
      loadBytes p.rsp.mem ((p.rsp.dmaSpan x i).near + j) n := by
  refine loadBytes_eq fun k hk => ?_
  have hbyte := dma_false_rdram_apply hi (show j + k < (p.rsp.dmaSpan x i).len by omega)
  rw [hea, Nat.add_assoc, Nat.add_assoc]
  exact hbyte

/-- The R4300 stores a word and the two go on, without writing to it, until a row that has it is
transferred to the RSP.  The RSP loads that word, or fetches it as an instruction. -/
theorem stored_word_delivered (hrun : Relation.ReflTransGen (Step fp (Bytes ea 4))
      (p.withCpu (p.cpu.storeMem none ea 4 v)) q)
    (hi : i < dmaCount x) (hlap : q.rsp.InLastLap x i)
    (hea : (physAddr ea).toNat = (q.rsp.dmaSpan x i).far + j)
    (hj : j + 4 ≤ (q.rsp.dmaSpan x i).len) :
    (∀ a, dmemIdx a = (q.rsp.dmaSpan x i).near + j → (q.rsp.dma x true).rd32 a = v) ∧
    ∀ pc, 0x1000 + (pc &&& 0xffc : Word).toNat = (q.rsp.dmaSpan x i).near + j →
      fetch (q.rsp.dma x true).imem pc = v := by
  have hload : q.cpu.loadMem ea 4 = v := by
    rw [loadMem_steps hrun]
    exact loadBytes_storeBytes (n := 4) p.cpu.ram _ v
  have hword := (loadBytes_dma_true hlap hi hea hj).trans hload
  refine ⟨fun a ha => ?_, fun pc hpc => ?_⟩
  · rw [rd32_eq_loadBytes _ (dmemIdx_le_of_span ha hj), ha]
    exact hword
  · rw [fetch_eq_loadBytes, hpc]
    exact hword

def boot : Processors := ⟨Rsp.init, Mach.zero, rfl⟩

def told : Processors :=
  let p := boot.withCpu (boot.cpu.storeMem none 0x80000100 4 (0x12345678 : Word))
  p.withRsp { p.rsp with spDramAddr := 0x100 }

theorem stored_word_delivered_boot : (told.rsp.dma 7 true).rd32 0 = 0x12345678 := by
  have hrun : Relation.ReflTransGen (Step FpUnit.zero (Bytes 0x80000100 4))
      (boot.withCpu (boot.cpu.storeMem none 0x80000100 4 (0x12345678 : Word))) told :=
    .single (.reg (show Rsp.mtc0 _ 1 0x100 = some told.rsp from rfl) fun h => absurd h (by decide))
  have hword := stored_word_delivered hrun (x := 7) (i := 0) (j := 0) (by decide)
    (by unfold InLastLap; decide) (by decide) (by decide)
  exact hword.1 0 (by decide)

/-- And back: a word the RSP stores, transferred, is what the R4300 loads whenever it does. -/
theorem sent_word_loaded {a : Word} (hi : i < dmaCount x)
    (ha : dmemIdx a = (p.rsp.dmaSpan x i).near + j)
    (hea : (physAddr ea).toNat = (p.rsp.dmaSpan x i).far + j)
    (hj : j + 4 ≤ (p.rsp.dmaSpan x i).len)
    (hrun : Relation.ReflTransGen (Step fp (Bytes ea 4))
      (p.withRsp ((p.rsp.wr32 a v).dma x false)) q) :
    q.cpu.loadMem ea 4 = v := by
  have hout := loadMem_dma_false (p := p.withRsp (p.rsp.wr32 a v)) hi hea hj
  have hword : loadBytes (p.rsp.wr32 a v).mem ((p.rsp.dmaSpan x i).near + j) 4 = v := by
    rw [wr32_mem _ (dmemIdx_le_of_span ha hj), ← ha]
    exact loadBytes_storeBytes (n := 4) p.rsp.mem _ v
  rw [loadMem_steps hrun]
  exact hout.trans hword

/-- The RSP has sent its first word to 0x100, and stopped. -/
def sent : Processors :=
  let p := boot.withRsp { boot.rsp with spDramAddr := 0x100 }
  p.withRsp ((p.rsp.wr32 0 0x12345678).dma 7 false)

theorem sent_word_loaded_boot :
    (sent.withRsp (sent.rsp.applyStatusWrite 0x200)).cpu.loadMem 0x80000100 4 =
      (0x12345678 : Word) := by
  have hrun : Relation.ReflTransGen (Step FpUnit.zero (Bytes 0x80000100 4)) sent
      (sent.withRsp (sent.rsp.applyStatusWrite 0x200)) :=
    .single (.reg (show Rsp.mtc0 _ 4 0x200 = some _ from rfl) fun h => absurd h (by decide))
  exact sent_word_loaded (p := boot.withRsp { boot.rsp with spDramAddr := 0x100 }) (a := 0)
    (x := 7) (i := 0) (j := 0) (by decide) (by decide) (by decide) (by decide) hrun

end Processors

end RspBt.R4300
