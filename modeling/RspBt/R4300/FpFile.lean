import RspBt.R4300.Predicate

namespace RspBt.R4300

structure Fr0 where
  gpr : BitVec 5 → BitVec 64
  lo : BitVec 64
  hi : BitVec 64
  fpr : BitVec 5 → Word
  fcc : Word
  ram : ℕ → Byte

namespace Fr0

variable (a : Fr0)

def getGPR (r : BitVec 5) : BitVec 64 := if r = 0 then 0 else a.gpr r

def setGPR (r : BitVec 5) (v : BitVec 64) : Fr0 :=
  if r = 0 then a else { a with gpr := Function.update a.gpr r v }

def setFpr (r : BitVec 5) (v : Word) : Fr0 := { a with fpr := Function.update a.fpr r v }

def condBit (insn : Word) : Word := 1 <<< (insn >>> 8 &&& 7).toNat

def setCond (insn : Word) (p : Bool) : Fr0 :=
  { a with fcc := if p then a.fcc ||| condBit insn else a.fcc &&& ~~~condBit insn }

def effAddr (insn : Word) : BitVec 64 := a.getGPR insn.rs + insn.simm.signExtend 64

def loadMem (ea : BitVec 64) (n : ℕ) : BitVec (8 * n) := loadBytes a.ram (physAddr ea).toNat n

def storeMem (pred : Option Bool) (ea : BitVec 64) (n : ℕ) (v : BitVec (8 * n)) : Fr0 :=
  { a with ram := storeBytes a.ram (guarded pred (physAddr ea) bitbucketPa).toNat n v }

theorem setFpr_of_ne {q r : BitVec 5} (h : q ≠ r) (v : Word) : (a.setFpr r v).fpr q = a.fpr q := by
  simp only [setFpr, Function.update_of_ne h]

end Fr0

/-- How an operand of a format is kept in the file. -/
structure Format (w : ℕ) where
  /-- The registers it takes. -/
  regs : BitVec 5 → List (BitVec 5)
  get : Fr0 → BitVec 5 → BitVec w
  set : Fr0 → BitVec 5 → BitVec w → Fr0
  frame : ∀ a r v q, q ∉ regs r → (set a r v).fpr q = a.fpr q

def single : Format 32 where
  regs r := [r]
  get a r := a.fpr r
  set a r v := a.setFpr r v
  frame a _ v _ hq := a.setFpr_of_ne (List.ne_of_not_mem_cons hq) v

/-- The odd register has the high word. -/
def double : Format 64 where
  regs r := [r &&& ~~~1, r ||| 1]
  get a r := a.fpr (r ||| 1) ++ a.fpr (r &&& ~~~1)
  set a r v := (a.setFpr (r &&& ~~~1) (lo32 v)).setFpr (r ||| 1) (lo32 (v >>> 32))
  frame a r v q hq := by
    rw [List.mem_cons, List.mem_singleton, not_or] at hq
    rw [Fr0.setFpr_of_ne _ hq.2, Fr0.setFpr_of_ne _ hq.1]

namespace Fr0

def arith {w : ℕ} (fp : Fp w) (fmt : Format w) (insn : Word) : Option (Fr0 → Fr0) :=
  let fs (a : Fr0) := fmt.get a insn.rd
  let ft (a : Fr0) := fmt.get a insn.rt
  match insn.fn with
  | 0x00 => some fun a => fmt.set a insn.sa (fp.add (fs a) (ft a))
  | 0x01 => some fun a => fmt.set a insn.sa (fp.sub (fs a) (ft a))
  | 0x02 => some fun a => fmt.set a insn.sa (fp.mul (fs a) (ft a))
  | 0x03 => some fun a => fmt.set a insn.sa (fp.div (fs a) (ft a))
  | 0x05 => some fun a => fmt.set a insn.sa (fp.abs (fs a))
  | 0x06 => some fun a => fmt.set a insn.sa (fs a)
  | 0x07 => some fun a => fmt.set a insn.sa (fp.neg (fs a))
  | 0x0d => some fun a => single.set a insn.sa (fp.toI32 (fs a))
  | 0x31 | 0x32 => some fun a => a.setCond insn (fp.oeq (fs a) (ft a))
  | 0x3c => some fun a => a.setCond insn (fp.olt (fs a) (ft a))
  | 0x3e => some fun a => a.setCond insn (fp.ole (fs a) (ft a))
  | _ => none

def cop1 (fp : FpUnit) (insn : Word) : Option (Fr0 → Fr0) :=
  match insn.rs with
  | 0x00 => some fun a => a.setGPR insn.rt (sext32 (single.get a insn.rd))
  | 0x04 => some fun a => single.set a insn.rd (lo32 (a.getGPR insn.rt))
  | 0x10 =>
    if insn.fn = 0x21 then some fun a => double.set a insn.sa (fp.ext (single.get a insn.rd))
    else arith fp.s single insn
  | 0x11 =>
    if insn.fn = 0x20 then some fun a => single.set a insn.sa (fp.trunc (double.get a insn.rd))
    else arith fp.d double insn
  | 0x14 =>
    match insn.fn with
    | 0x20 => some fun a => single.set a insn.sa (fp.s.ofSI (single.get a insn.rd))
    | 0x21 => some fun a => double.set a insn.sa (fp.d.ofSI (single.get a insn.rd))
    | _ => none
  | _ => none

def when (f : Fr0 → Fr0) : Option Bool → Fr0 → Fr0 := fun pred a => guarded pred (f a) a

def exec (fp : FpUnit) (insn : Word) : Option (Option Bool → Fr0 → Fr0) :=
  match insn.op with
  | 0x11 => (cop1 fp insn).map when
  | 0x31 => some (when fun a => single.set a insn.rt (a.loadMem (a.effAddr insn) 4))
  | 0x35 => some (when fun a => double.set a insn.rt (a.loadMem (a.effAddr insn) 8))
  | 0x39 => some fun pred a => a.storeMem pred (a.effAddr insn) 4 (single.get a insn.rt)
  | 0x3d => some fun pred a => a.storeMem pred (a.effAddr insn) 8 (double.get a insn.rt)
  | _ => none

end Fr0

/-- The half slots that are live are the registers. -/
def Mach.fr0 (m : Mach) : Fr0 where
  gpr := m.gpr
  lo := m.lo
  hi := m.hi
  fpr r := m.load (fprHalfPtr r)
  fcc := m.fcc
  ram := m.ram

theorem toNat_evenReg : ∀ r : BitVec 5, (r &&& ~~~1).toNat = r.toNat / 2 * 2 := by decide
theorem toNat_oddReg : ∀ r : BitVec 5, (r ||| 1).toNat = r.toNat / 2 * 2 + 1 := by decide
theorem toNat_half : ∀ r : BitVec 5, (r &&& 1).toNat = r.toNat % 2 := by decide

theorem fprHalfPtr_eq (r : BitVec 5) :
    fprHalfPtr r = .word (r.toNat / 2 * 4 + r.toNat % 2) := by
  rw [fprHalfPtr, toNat_evenReg, toNat_half]
  congr 1
  omega

theorem fprDblPtr_eq (r : BitVec 5) : fprDblPtr r = .slot (r.toNat / 2 * 4) := by
  rw [fprDblPtr, toNat_evenReg]
  congr 1
  omega

theorem fr0_fpr (m : Mach) (r : BitVec 5) :
    m.fr0.fpr r = m.cpr1 (r.toNat / 2 * 4 + r.toNat % 2) := by
  change m.load (fprHalfPtr r) = _
  rw [fprHalfPtr_eq]
  rfl

theorem fr0_update (m : Mach) (r : BitVec 5) (v : Word) :
    { m with cpr1 := Function.update m.cpr1 (r.toNat / 2 * 4 + r.toNat % 2) v }.fr0 =
      m.fr0.setFpr r v := by
  have hfpr (q : BitVec 5) :
      Function.update m.cpr1 (r.toNat / 2 * 4 + r.toNat % 2) v (q.toNat / 2 * 4 + q.toNat % 2) =
        Function.update m.fr0.fpr r v q := by
    by_cases hq : q = r
    · rw [hq, Function.update_self, Function.update_self]
    · have hne : q.toNat ≠ r.toNat := fun h => hq (BitVec.eq_of_toNat_eq h)
      rw [Function.update_of_ne hq, Function.update_of_ne (by omega), fr0_fpr]
  rw [Fr0.setFpr, ← funext hfpr]
  unfold Mach.fr0
  congr 1
  funext q
  rw [fprHalfPtr_eq]
  rfl

structure Format.At {w : ℕ} (fmt : Format w) (p : StatePtr w) (r : BitVec 5) : Prop where
  load : ∀ m : Mach, m.load p = fmt.get m.fr0 r
  store : ∀ (m : Mach) (v : BitVec w), (m.store p v).fr0 = fmt.set m.fr0 r v

theorem single_at (r : BitVec 5) : single.At (fprHalfPtr r) r where
  load m := rfl
  store m v := by
    rw [fprHalfPtr_eq]
    exact fr0_update m r v

theorem double_at (r : BitVec 5) : double.At (fprDblPtr r) r where
  load m := by
    have heven : (r &&& ~~~1).toNat / 2 * 4 + (r &&& ~~~1).toNat % 2 = r.toNat / 2 * 4 := by
      rw [toNat_evenReg]
      omega
    have hodd : (r ||| 1).toNat / 2 * 4 + (r ||| 1).toNat % 2 = r.toNat / 2 * 4 + 1 := by
      rw [toNat_oddReg]
      omega
    rw [fprDblPtr_eq]
    simp only [Mach.load, double, fr0_fpr, heven, hodd]
  store m v := by
    have heven : r.toNat / 2 * 4 = (r &&& ~~~1).toNat / 2 * 4 + (r &&& ~~~1).toNat % 2 := by
      rw [toNat_evenReg]
      omega
    have hodd : r.toNat / 2 * 4 + 1 = (r ||| 1).toNat / 2 * 4 + (r ||| 1).toNat % 2 := by
      rw [toNat_oddReg]
      omega
    rw [fprDblPtr_eq]
    simp only [Mach.store, double]
    rw [← fr0_update m, ← fr0_update _ (r ||| 1), hodd, heven]

theorem single_at_of_even {r : BitVec 5} (h : r.toNat % 2 = 0) : single.At (fprPtr32 r) r := by
  have hptr : fprPtr32 r = fprHalfPtr r := by
    rw [fprHalfPtr_eq, fprPtr32]
    congr 1
    omega
  rw [hptr]
  exact single_at r

theorem double_at_of_even {r : BitVec 5} (h : r.toNat % 2 = 0) : double.At (fprPtr64 r) r := by
  have hptr : fprPtr64 r = fprDblPtr r := by
    rw [fprDblPtr_eq, fprPtr64]
    congr 1
    omega
  rw [hptr]
  exact double_at r

variable {fp : FpUnit} {insn : Word} {m : Mach} {pred : Option Bool} {w : ℕ}

def fpOperands (insn : Word) : List (BitVec 5) :=
  match insn.fn with
  | 0x00 | 0x01 | 0x02 | 0x03 => [insn.rd, insn.rt, insn.sa]
  | 0x31 | 0x32 | 0x3c | 0x3e => [insn.rd, insn.rt]
  | 0x05 | 0x06 | 0x07 | 0x0d | 0x20 | 0x21 => [insn.rd, insn.sa]
  | _ => []

/-- A move, a load or a store of the file, or arithmetic on even registers. -/
def FpWord (insn : Word) : Prop :=
  insn.op ∈ [0x31, 0x35, 0x39, 0x3d] ∨ insn.op = 0x11 ∧
    (insn.rs ∈ [0x00, 0x04] ∨ ∀ r ∈ fpOperands insn, r.toNat % 2 = 0)

instance (insn : Word) : Decidable (FpWord insn) := inferInstanceAs (Decidable (_ ∨ _))

/-- The code does on the slots what the instruction does on the file. -/
def Emit.Refines (f : Emit) (g : Option Bool → Fr0 → Fr0) : Prop :=
  ∀ pred m, (f pred m).fr0 = g pred m.fr0

theorem fr0_setGPR (r : BitVec 5) (v : BitVec 64) :
    (m.setGPR pred r v).fr0 = guarded pred (m.fr0.setGPR r v) m.fr0 := by
  have hset : (m.setGPR none r v).fr0 = m.fr0.setGPR r v := by
    unfold Mach.setGPR Fr0.setGPR
    split_ifs
    · rfl
    · rfl
  rcases pred with _ | _ | _
  · exact hset
  · rw [m.setGPR_squashed]
    rfl
  · exact hset

theorem Format.At.storeGuarded {fmt : Format w} {p : StatePtr w} {r : BitVec 5} (h : fmt.At p r)
    (v : BitVec w) : (m.storeGuarded pred p v).fr0 = guarded pred (fmt.set m.fr0 r v) m.fr0 := by
  rcases pred with _ | _ | _
  · exact h.store m v
  · rw [m.storeGuarded_squashed]
    rfl
  · exact h.store m v

theorem fr0_setCond (insn : Word) (p : Bool) :
    (m.storeGuarded pred .fcc (if p then m.load .fcc ||| Fr0.condBit insn
      else m.load .fcc &&& ~~~Fr0.condBit insn)).fr0 =
        guarded pred (m.fr0.setCond insn p) m.fr0 := by
  rcases pred with _ | _ | _
  · rfl
  · rw [m.storeGuarded_squashed]
    rfl
  · rfl

theorem refines_arith {fp : Fp w} {fmt : Format w} {ptr : BitVec 5 → StatePtr w}
    (hptr : ∀ r : BitVec 5, r.toNat % 2 = 0 → fmt.At (ptr r) r)
    (heven : ∀ r ∈ fpOperands insn, r.toNat % 2 = 0) :
    Option.Rel Emit.Refines (emitArith fp ptr insn) ((Fr0.arith fp fmt insn).map Fr0.when) := by
  unfold emitArith
  simp only
  unfold fpOperands at heven
  split
  case h_13 =>
    unfold Fr0.arith
    split
    case h_13 => exact .none
    all_goals contradiction
  all_goals
    rename_i hfn
    unfold Fr0.arith
    simp only [hfn, List.forall_mem_cons] at heven ⊢
    apply Option.Rel.some
    intro pred m
  case h_1 | h_2 | h_3 | h_4 =>
    obtain ⟨hfs, hft, hfd, -⟩ := heven
    rw [(hptr _ hfd).storeGuarded, (hptr _ hfs).load, (hptr _ hft).load]
    rfl
  case h_5 | h_6 | h_7 =>
    obtain ⟨hfs, hfd, -⟩ := heven
    rw [(hptr _ hfd).storeGuarded, (hptr _ hfs).load]
    rfl
  case h_8 =>
    obtain ⟨hfs, hfd, -⟩ := heven
    rw [(single_at_of_even hfd).storeGuarded, (hptr _ hfs).load]
    rfl
  all_goals
    obtain ⟨hfs, hft, -⟩ := heven
    simp only [(hptr _ hfs).load, (hptr _ hft).load]
    exact fr0_setCond insn _

theorem convert_even (hfn : insn.fn = 0x20#6 ∨ insn.fn = 0x21#6)
    (heven : ∀ r ∈ fpOperands insn, r.toNat % 2 = 0) :
    insn.rd.toNat % 2 = 0 ∧ insn.sa.toNat % 2 = 0 := by
  unfold fpOperands at heven
  rcases hfn with hfn | hfn
  all_goals
    simp only [hfn, List.forall_mem_cons] at heven
    exact ⟨heven.1, heven.2.1⟩

theorem refines_cop1 (h : insn.rs ∈ [0x00#5, 0x04#5] ∨ ∀ r ∈ fpOperands insn, r.toNat % 2 = 0) :
    Option.Rel Emit.Refines (emitCop1 fp insn) ((Fr0.cop1 fp insn).map Fr0.when) := by
  have heven (hrs : insn.rs ∉ [0x00#5, 0x04#5]) := h.resolve_left hrs
  unfold emitCop1
  split
  case h_6 =>
    unfold Fr0.cop1
    split
    case h_6 => exact .none
    all_goals contradiction
  all_goals
    rename_i hrs
    unfold Fr0.cop1
    simp only [hrs] at heven ⊢
  case h_1 =>
    apply Option.Rel.some
    intro pred m
    rw [fr0_setGPR, (single_at _).load]
    rfl
  case h_2 =>
    apply Option.Rel.some
    intro pred m
    exact (single_at _).storeGuarded _
  all_goals
    have heven := heven (by decide)
  case h_3 =>
    split_ifs with hfn
    · obtain ⟨hfs, hfd⟩ := convert_even (.inr hfn) heven
      apply Option.Rel.some
      intro pred m
      rw [(double_at_of_even hfd).storeGuarded, (single_at_of_even hfs).load]
      rfl
    · exact refines_arith (fun r => single_at_of_even) heven
  case h_4 =>
    split_ifs with hfn
    · obtain ⟨hfs, hfd⟩ := convert_even (.inl hfn) heven
      apply Option.Rel.some
      intro pred m
      rw [(single_at_of_even hfd).storeGuarded, (double_at_of_even hfs).load]
      rfl
    · exact refines_arith (fun r => double_at_of_even) heven
  case h_5 =>
    by_cases hs : insn.fn = 0x20#6
    · obtain ⟨hfs, hfd⟩ := convert_even (.inl hs) heven
      simp only [hs, Option.map_some]
      apply Option.Rel.some
      intro pred m
      rw [(single_at_of_even hfd).storeGuarded, (single_at_of_even hfs).load]
      rfl
    · by_cases hd : insn.fn = 0x21#6
      · obtain ⟨hfs, hfd⟩ := convert_even (.inr hd) heven
        simp only [hd, Option.map_some]
        apply Option.Rel.some
        intro pred m
        rw [(double_at_of_even hfd).storeGuarded, (single_at_of_even hfs).load]
        rfl
      · simp only [Option.map_none]
        exact .none

/-- Every translated access of the file is the instruction's, and one that is not translated has
no meaning there either. -/
theorem refines_exec (h : FpWord insn) :
    Option.Rel Emit.Refines (emitOne fp insn) (Fr0.exec fp insn) := by
  unfold emitOne Fr0.exec
  rcases h with hmem | ⟨hop, hcop1⟩
  · simp only [List.mem_cons, List.not_mem_nil, or_false] at hmem
    rcases hmem with hop | hop | hop | hop
    all_goals
      simp only [hop]
      apply Option.Rel.some
      intro pred m
    · exact (single_at _).storeGuarded _
    · exact (double_at _).storeGuarded _
    · rfl
    · simp only [(double_at _).load]
      rfl
  · simp only [hop]
    exact refines_cop1 hcop1

/-- Where arithmetic puts its result; a compare sets a condition. -/
def arithDests (fmt : Format w) (insn : Word) : List (BitVec 5) :=
  match insn.fn with
  | 0x31 | 0x32 | 0x3c | 0x3e => []
  | 0x0d => single.regs insn.sa
  | _ => fmt.regs insn.sa

def fpDests (insn : Word) : List (BitVec 5) :=
  match insn.op with
  | 0x31 => single.regs insn.rt
  | 0x35 => double.regs insn.rt
  | 0x11 =>
    match insn.rs with
    | 0x04 => single.regs insn.rd
    | 0x10 => if insn.fn = 0x21 then double.regs insn.sa else arithDests single insn
    | 0x11 => if insn.fn = 0x20 then single.regs insn.sa else arithDests double insn
    | 0x14 => if insn.fn = 0x21 then double.regs insn.sa else single.regs insn.sa
    | _ => []
  | _ => []

namespace Fr0

variable {q : BitVec 5}

theorem setGPR_fpr (a : Fr0) (r : BitVec 5) (v : BitVec 64) : (a.setGPR r v).fpr = a.fpr := by
  unfold setGPR
  split_ifs
  · rfl
  · rfl

theorem arith_frame {fp : Fp w} {fmt : Format w} {f : Fr0 → Fr0} (h : arith fp fmt insn = some f)
    (hq : q ∉ arithDests fmt insn) (a : Fr0) : (f a).fpr q = a.fpr q := by
  unfold arith at h
  unfold arithDests at hq
  simp only at h
  split at h
  case h_13 => cases h
  all_goals
    rename_i hfn
    obtain rfl := Option.some.inj h
    simp only [hfn] at hq
  case h_9 | h_10 | h_11 | h_12 => rfl
  case h_8 => exact single.frame a _ _ q hq
  all_goals exact fmt.frame a _ _ q hq

theorem cop1_frame {f : Fr0 → Fr0} (h : cop1 fp insn = some f) (hop : insn.op = 0x11#6)
    (hq : q ∉ fpDests insn) (a : Fr0) : (f a).fpr q = a.fpr q := by
  unfold cop1 at h
  simp only [fpDests, hop] at hq
  split at h
  case h_6 => cases h
  all_goals
    rename_i hrs
    simp only [hrs] at hq
  case h_1 =>
    obtain rfl := Option.some.inj h
    rw [setGPR_fpr]
  case h_2 =>
    obtain rfl := Option.some.inj h
    exact single.frame a _ _ q hq
  case h_3 =>
    split_ifs at h hq
    · obtain rfl := Option.some.inj h
      exact double.frame a _ _ q hq
    · exact arith_frame h hq a
  case h_4 =>
    split_ifs at h hq
    · obtain rfl := Option.some.inj h
      exact single.frame a _ _ q hq
    · exact arith_frame h hq a
  case h_5 =>
    split at h
    case h_1 hfn =>
      obtain rfl := Option.some.inj h
      rw [if_neg (by rw [hfn]; decide)] at hq
      exact single.frame a _ _ q hq
    case h_2 hfn =>
      obtain rfl := Option.some.inj h
      rw [if_pos (show insn.fn = 0x21 from hfn)] at hq
      exact double.frame a _ _ q hq
    case h_3 => cases h

/-- A word changes no register but those it names. -/
theorem exec_frame {g : Option Bool → Fr0 → Fr0} (h : exec fp insn = some g)
    (hq : q ∉ fpDests insn) (a : Fr0) : (g pred a).fpr q = a.fpr q := by
  have hwhen {f : Fr0 → Fr0} (hf : ∀ a, (f a).fpr q = a.fpr q) :
      (when f pred a).fpr q = a.fpr q := by
    rcases pred with _ | _ | _
    · exact hf a
    · rfl
    · exact hf a
  unfold exec at h
  split at h
  case h_1 hop =>
    obtain ⟨f, hf, rfl⟩ := Option.map_eq_some_iff.mp h
    exact hwhen (cop1_frame hf hop hq)
  case h_2 hop =>
    obtain rfl := Option.some.inj h
    simp only [fpDests, hop] at hq
    exact hwhen fun a => single.frame a _ _ q hq
  case h_3 hop =>
    obtain rfl := Option.some.inj h
    simp only [fpDests, hop] at hq
    exact hwhen fun a => double.frame a _ _ q hq
  case h_4 | h_5 =>
    obtain rfl := Option.some.inj h
    rfl
  case h_6 => cases h

end Fr0

/-- The code of words, each under a predicate of its own. -/
def runCode (fp : FpUnit) : List (Option Bool × Word) → Mach → Option Mach
  | [], m => some m
  | (pred, insn) :: ws, m => (emitOne fp insn).bind fun f => runCode fp ws (f pred m)

namespace Fr0

def run (fp : FpUnit) : List (Option Bool × Word) → Fr0 → Option Fr0
  | [], a => some a
  | (pred, insn) :: ws, a => (exec fp insn).bind fun f => run fp ws (f pred a)

theorem run_frame {ws : List (Option Bool × Word)} {a b : Fr0} (h : run fp ws a = some b)
    {q : BitVec 5} (hq : ∀ x ∈ ws, q ∉ fpDests x.2) : b.fpr q = a.fpr q := by
  induction ws generalizing a with
  | nil =>
    obtain rfl := Option.some.inj h
    rfl
  | cons x ws ih =>
    obtain ⟨pred, insn⟩ := x
    rw [List.forall_mem_cons] at hq
    obtain ⟨g, hg, hrest⟩ := Option.bind_eq_some_iff.mp h
    exact (ih hrest hq.2).trans (exec_frame hg hq.1 a)

end Fr0

theorem run_refines (fp : FpUnit) {ws : List (Option Bool × Word)} (h : ∀ x ∈ ws, FpWord x.2)
    (m : Mach) : (runCode fp ws m).map Mach.fr0 = Fr0.run fp ws m.fr0 := by
  induction ws generalizing m with
  | nil => rfl
  | cons x ws ih =>
    obtain ⟨pred, insn⟩ := x
    rw [List.forall_mem_cons] at h
    have hone : Option.Rel Emit.Refines (emitOne fp insn) (Fr0.exec fp insn) := refines_exec h.1
    unfold runCode Fr0.run
    generalize emitOne fp insn = f at hone ⊢
    generalize Fr0.exec fp insn = g at hone ⊢
    cases hone with
    | none => rfl
    | some hfg =>
      simp only [Option.bind_some]
      rw [ih h.2, hfg]

/-- Every sequence of accesses to the file, in any order, does to the slots what it does to the one
file of 32 registers, and a register that no word of it names keeps its value. -/
theorem fpFile_refines (fp : FpUnit) {ws : List (Option Bool × Word)}
    (h : ∀ x ∈ ws, FpWord x.2) (m : Mach) :
    (runCode fp ws m).map Mach.fr0 = Fr0.run fp ws m.fr0 ∧
      ∀ m', runCode fp ws m = some m' →
        ∀ r, (∀ x ∈ ws, r ∉ fpDests x.2) → m'.fr0.fpr r = m.fr0.fpr r := by
  have hrun := run_refines fp h m
  refine ⟨hrun, fun m' hm' r hr => ?_⟩
  rw [hm', Option.map_some] at hrun
  exact Fr0.run_frame hrun.symm hr

/-- A double built from its halves, doubled: `mtc1 $1,$f4`, `mtc1 $2,$f5`, `add.d $f6,$f4,$f4`. -/
def doubleConst : List (Option Bool × Word) := [(none, 0x44812000), (none, 0x44822800),
  (none, 0x46242180)]

theorem fpFile_refines_doubleConst :
    (runCode .zero doubleConst .zero).map Mach.fr0 = Fr0.run .zero doubleConst Mach.zero.fr0 ∧
      ∀ m', runCode .zero doubleConst .zero = some m' →
        ∀ r, (∀ x ∈ doubleConst, r ∉ fpDests x.2) → m'.fr0.fpr r = Mach.zero.fr0.fpr r := by
  have hwords : ∀ x ∈ doubleConst, FpWord x.2 := by
    simp only [doubleConst, List.forall_mem_cons, List.not_mem_nil, false_imp_iff, implies_true,
      and_true]
    exact ⟨by decide, by decide, by decide⟩
  exact fpFile_refines .zero hwords .zero

end RspBt.R4300
