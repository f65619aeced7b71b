import RspBt.Rsp.Run

namespace RspBt.Rsp

def KeepsImem (s s' : Rsp) : Prop := ∀ a, 0x1000 ≤ a → s'.mem a = s.mem a

theorem KeepsImem.refl (s : Rsp) : KeepsImem s s := fun _ _ => rfl

theorem KeepsImem.trans {s t u : Rsp} (h : KeepsImem s t) (h' : KeepsImem t u) : KeepsImem s u :=
  fun a ha => (h' a ha).trans (h a ha)

theorem KeepsImem.imem {s s' : Rsp} (h : KeepsImem s s') : s'.imem = s.imem := by
  funext i
  exact h _ (by omega)

theorem keepsImem_of_mem {s s' : Rsp} (h : s'.mem = s.mem) : KeepsImem s s' :=
  fun a _ => congrFun h a

theorem keepsImem_foldl {ι : Type*} {f : Rsp → ι → Rsp} (hf : ∀ s i, KeepsImem s (f s i))
    (l : List ι) (s : Rsp) : KeepsImem s (l.foldl f s) := by
  induction l generalizing s with
  | nil => exact .refl s
  | cons i l ih => exact (hf s i).trans (ih (f s i))

theorem keepsImem_wr8 (s : Rsp) (a : Word) (x : Byte) : KeepsImem s (s.wr8 a x) := by
  intro b hb
  have h := dmemIdx_lt a
  exact Function.update_of_ne (by omega) _ _

theorem keepsImem_wr16 (s : Rsp) (a : Word) (x : BitVec 16) : KeepsImem s (s.wr16 a x) :=
  (keepsImem_wr8 _ _ _).trans (keepsImem_wr8 _ _ _)

theorem keepsImem_wr32 (s : Rsp) (a : Word) (x : Word) : KeepsImem s (s.wr32 a x) :=
  (((keepsImem_wr8 _ _ _).trans (keepsImem_wr8 _ _ _)).trans (keepsImem_wr8 _ _ _)).trans
    (keepsImem_wr8 _ _ _)

theorem keepsImem_storeBytes (s : Rsp) (vt : BitVec 5) (e : ℕ) (ea : Word) (n : ℕ) :
    KeepsImem s (s.storeBytes vt e ea n) :=
  keepsImem_foldl (fun s _ => keepsImem_wr8 s _ _) _ s

theorem keepsImem_swc2 {s s' : Rsp} {w : Word} (h : s.swc2 w = some s') : KeepsImem s s' := by
  unfold swc2 at h
  split at h
  case h_9 => cases h
  all_goals obtain rfl := Option.some.inj h
  case h_1 => exact keepsImem_wr8 _ _ _
  case h_2 | h_3 => exact keepsImem_foldl (fun s _ => keepsImem_wr8 s _ _) _ s
  all_goals exact keepsImem_storeBytes _ _ _ _ _

theorem dmaCount_pos (lenReg : Word) : 0 < dmaCount lenReg ∧ dmaCount lenReg ≤ 256 := by
  have h : ((lenReg >>> 12) &&& 0xff).toNat < 2 ^ 8 := by
    rw [BitVec.toNat_and]
    exact Nat.and_lt_two_pow _ (by decide : (0xff : Word).toNat < 2 ^ 8)
  rw [dmaCount, BitVec.toNat_add, show (1 : Word).toNat = 1 from rfl]
  omega

theorem imemGen_dmaRows (len skip n : ℕ) (d : DmaState) :
    ((dmaRow len skip 0x1000 true)^[n] d).s.imemGen = d.s.imemGen + BitVec.ofNat 64 n := by
  induction n with
  | zero => simp
  | succ n ih =>
    rw [Function.iterate_succ_apply', BitVec.ofNat_add, ← BitVec.add_assoc, ← ih]
    rfl

theorem keepsImem_dmaRow (len skip : ℕ) {bank : ℕ} {toRsp : Bool} (h : toRsp = true → bank = 0)
    {d : DmaState} (hoff : d.off < 0x1000) :
    KeepsImem d.s (dmaRow len skip bank toRsp d).s ∧ (dmaRow len skip bank toRsp d).off < 0x1000 := by
  refine ⟨?_, Nat.mod_lt _ (by decide)⟩
  cases toRsp with
  | false => exact .refl d.s
  | true =>
    intro a ha
    have hn : d.off + dmaRowLen len d.off ≤ 0x1000 := dmaRowLen_le hoff
    simp only [dmaRow, h rfl]
    exact Lib.memcpy_out (by omega)

theorem keepsImem_dmaRows {len skip bank : ℕ} {toRsp : Bool} (h : toRsp = true → bank = 0) (n : ℕ)
    {d : DmaState} (hoff : d.off < 0x1000) :
    KeepsImem d.s ((dmaRow len skip bank toRsp)^[n] d).s ∧
      ((dmaRow len skip bank toRsp)^[n] d).off < 0x1000 := by
  induction n with
  | zero => exact ⟨.refl d.s, hoff⟩
  | succ n ih =>
    rw [Function.iterate_succ_apply']
    obtain ⟨hk, ho⟩ := keepsImem_dmaRow len skip h ih.2
    exact ⟨ih.1.trans hk, ho⟩

theorem dmaBank_cases (s : Rsp) : s.dmaBank = 0 ∨ s.dmaBank = 0x1000 := by
  have h : (s.spMemAddr &&& 0x1000) = if s.spMemAddr.getLsbD 12 then 0x1000 else 0 :=
    BitVec.and_twoPow s.spMemAddr 12
  rw [dmaBank, h]
  split_ifs
  · exact .inr rfl
  · exact .inl rfl

/-- A transfer that leaves the counter alone did not go into IMEM. -/
theorem keepsImem_dma {s : Rsp} {lenReg : Word} {toRsp : Bool}
    (h : (s.dma lenReg toRsp).imemGen = s.imemGen) : KeepsImem s (s.dma lenReg toRsp) := by
  have hoff : s.dmaStart.off < 0x1000 := by
    have h12 : (0xff8 : Word).toNat < 2 ^ 12 := by decide
    simp only [dmaStart, BitVec.toNat_and]
    exact Nat.and_lt_two_pow _ h12
  refine (keepsImem_dmaRows (fun hto => ?_) (dmaCount lenReg) hoff).1
  subst hto
  by_contra hbank
  have hb : s.dmaBank = 0x1000 := (dmaBank_cases s).resolve_left hbank
  obtain ⟨hpos, hle⟩ := dmaCount_pos lenReg
  have hgen : (s.dma lenReg true).imemGen = s.imemGen + BitVec.ofNat 64 (dmaCount lenReg) := by
    simp only [dma, dmaRows, hb, imemGen_dmaRows, dmaStart]
  rw [h] at hgen
  have hz : (BitVec.ofNat 64 (dmaCount lenReg)).toNat = 0 := by
    have := congrArg BitVec.toNat hgen
    bv_omega
  rw [BitVec.toNat_ofNat] at hz
  omega

theorem keepsImem_mtc0 {s s' : Rsp} {rd : BitVec 5} {x : Word} (h : s.mtc0 rd x = some s')
    (hg : s'.imemGen = s.imemGen) : KeepsImem s s' := by
  unfold mtc0 at h
  split at h
  case h_15 => cases h
  all_goals obtain rfl := Option.some.inj h
  case h_3 | h_4 => exact keepsImem_dma hg
  all_goals exact .refl s

end RspBt.Rsp
