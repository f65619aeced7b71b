import RspBt.Rsp.Imem

namespace RspBt

namespace Word

theorem toNat_and_field (a : Word) {mask : Word} {lo hi : ℕ}
    (h : ∀ j : Fin 32, mask.getLsbD j = decide (lo ≤ j.val ∧ j.val < hi)) (hhi : hi ≤ 32) :
    (a &&& mask).toNat = a.toNat % 2 ^ hi / 2 ^ lo * 2 ^ lo := by
  apply Nat.eq_of_testBit_eq
  intro j
  have hm : mask.toNat.testBit j = decide (lo ≤ j ∧ j < hi) := by
    by_cases hj : j < 32
    · exact h ⟨j, hj⟩
    · rw [decide_eq_false (by omega)]
      exact BitVec.getLsbD_of_ge mask j (by omega)
  rw [BitVec.toNat_and, Nat.testBit_and, hm, Nat.testBit_mul_two_pow, Nat.testBit_div_two_pow,
    Nat.testBit_mod_two_pow]
  by_cases hl : lo ≤ j
  · rw [Nat.sub_add_cancel hl]
    by_cases hr : j < hi <;> simp [hl, hr]
  · simp [hl]

theorem toNat_and_ff8 (a : Word) : (a &&& 0xff8).toNat = a.toNat % 0x1000 / 8 * 8 :=
  toNat_and_field a (by decide : ∀ j : Fin 32, (0xff8 : Word).getLsbD j = decide (3 ≤ j.val ∧ j.val < 12))
    (by decide)

theorem toNat_and_fffff8 (a : Word) : (a &&& 0xfffff8).toNat = a.toNat % 0x1000000 / 8 * 8 :=
  toNat_and_field a (by decide : ∀ j : Fin 32, (0xfffff8 : Word).getLsbD j =
    decide (3 ≤ j.val ∧ j.val < 24)) (by decide)

theorem toNat_and_1000 (a : Word) : (a &&& 0x1000).toNat = a.toNat % 0x2000 / 0x1000 * 0x1000 :=
  toNat_and_field a (by decide : ∀ j : Fin 32, (0x1000 : Word).getLsbD j =
    decide (12 ≤ j.val ∧ j.val < 13)) (by decide)

theorem toNat_and_fff (a : Word) : (a &&& 0xfff).toNat = a.toNat % 0x1000 := by
  rw [BitVec.toNat_and]
  exact Nat.and_two_pow_sub_one_eq_mod a.toNat 12

theorem toNat_and_ff (a : Word) : (a &&& 0xff).toNat = a.toNat % 0x100 := by
  rw [BitVec.toNat_and]
  exact Nat.and_two_pow_sub_one_eq_mod a.toNat 8

end Word

namespace Rsp

/-- Stride, rows less one, bytes per row less one. -/
def lenReg (len : BitVec 12) (skip : BitVec 12) (rows : ℕ) : Word :=
  skip ++ BitVec.ofNat 8 (rows - 1) ++ len

theorem dmaLen_mod (x : Word) : dmaLen x % 8 = 0 := by
  have h : (x &&& 0xfff ||| 7 : Word).toNat % 8 = 7 := by
    rw [BitVec.toNat_or, show (8 : ℕ) = 2 ^ 3 from rfl, Nat.or_mod_two_pow]
    have hor : ∀ r < 8, r ||| (7 : Word).toNat % 2 ^ 3 = 7 := by decide
    exact hor _ (Nat.mod_lt _ (by decide))
  rw [dmaLen, BitVec.toNat_add, show (1 : Word).toNat = 1 from rfl]
  omega

theorem toNat_lenReg (len skip : BitVec 12) (rows : ℕ) :
    (lenReg len skip rows).toNat = skip.toNat * 2 ^ 20 + (rows - 1) % 2 ^ 8 * 2 ^ 12 + len.toNat := by
  have hl := len.isLt
  rw [lenReg, BitVec.toNat_append, BitVec.toNat_append, BitVec.toNat_ofNat,
    ← Nat.shiftLeft_add_eq_or_of_lt (Nat.mod_lt _ (by decide)), ← Nat.shiftLeft_add_eq_or_of_lt hl,
    Nat.shiftLeft_eq, Nat.shiftLeft_eq]
  omega

theorem dmaCount_lenReg (len skip : BitVec 12) {rows : ℕ} (h : 1 ≤ rows) (h' : rows ≤ 256) :
    dmaCount (lenReg len skip rows) = rows := by
  have hl := len.isLt
  rw [dmaCount, BitVec.toNat_add, Word.toNat_and_ff, BitVec.toNat_ushiftRight, toNat_lenReg,
    Nat.shiftRight_eq_div_pow, show (1 : Word).toNat = 1 from rfl]
  omega

theorem dmaSkip_lenReg (len skip : BitVec 12) (rows : ℕ) :
    dmaSkip (lenReg len skip rows) = skip.toNat := by
  have hl := len.isLt
  have hs := skip.isLt
  rw [dmaSkip, Word.toNat_and_fff, BitVec.toNat_ushiftRight, toNat_lenReg, Nat.shiftRight_eq_div_pow]
  omega

theorem dmaLen_lenReg (len skip : BitVec 12) (rows : ℕ) :
    dmaLen (lenReg len skip rows) = ((len.setWidth 32 ||| 7) + 1 : Word).toNat := by
  have hl := len.isLt
  have h : lenReg len skip rows &&& (0xfff : Word) = len.setWidth 32 := by
    apply BitVec.eq_of_toNat_eq
    rw [Word.toNat_and_fff, toNat_lenReg, BitVec.toNat_setWidth]
    omega
  rw [dmaLen, h]

def dmaAt (s : Rsp) (lenReg : Word) (toRsp : Bool) (i : ℕ) : DmaState :=
  (dmaRow (dmaLen lenReg) (dmaSkip lenReg) s.dmaBank toRsp)^[i] s.dmaStart

theorem dmaAt_succ (s : Rsp) (x : Word) (toRsp : Bool) (i : ℕ) :
    s.dmaAt x toRsp (i + 1) =
      dmaRow (dmaLen x) (dmaSkip x) s.dmaBank toRsp (s.dmaAt x toRsp i) :=
  Function.iterate_succ_apply' ..

theorem dmaRows_eq (s : Rsp) (x : Word) (toRsp : Bool) :
    s.dmaRows x toRsp = s.dmaAt x toRsp (dmaCount x) := rfl

/-- The addresses of a row inside their spaces, the SP one on a doubleword. -/
structure DmaState.InSpace (d : DmaState) : Prop where
  off : d.off < 0x1000
  off8 : d.off % 8 = 0
  dram : d.dram < 0x1000000

theorem dmaStart_inSpace (s : Rsp) : s.dmaStart.InSpace := by
  have hoff : s.dmaStart.off = s.spMemAddr.toNat % 0x1000 / 8 * 8 := Word.toNat_and_ff8 _
  have hdram : s.dmaStart.dram = s.spDramAddr.toNat % 0x1000000 / 8 * 8 := Word.toNat_and_fffff8 _
  constructor <;> omega

theorem dmaRowLen_mod {len off : ℕ} (hl : len % 8 = 0) (ho : off % 8 = 0) (h : off < 0x1000) :
    dmaRowLen len off % 8 = 0 := by
  unfold dmaRowLen
  split_ifs <;> omega

theorem dmaRow_inSpace {len skip bank : ℕ} (hl : len % 8 = 0) (toRsp : Bool) {d : DmaState}
    (h : d.InSpace) : (dmaRow len skip bank toRsp d).InSpace := by
  have hn := dmaRowLen_mod hl h.off8 h.off
  have ho := h.off8
  exact ⟨Nat.mod_lt _ (by decide), by simp only [dmaRow]; omega, Nat.mod_lt _ (by decide)⟩

theorem dmaAt_inSpace (s : Rsp) (x : Word) (toRsp : Bool) (i : ℕ) : (s.dmaAt x toRsp i).InSpace := by
  induction i with
  | zero => exact s.dmaStart_inSpace
  | succ i ih =>
    rw [dmaAt_succ]
    exact dmaRow_inSpace (dmaLen_mod x) toRsp ih

/-- With a stride of whole doublewords the RDRAM address stays on one too. -/
theorem dram_mod (s : Rsp) (x : Word) (toRsp : Bool) (hskip : dmaSkip x % 8 = 0) (i : ℕ) :
    (s.dmaAt x toRsp i).dram % 8 = 0 := by
  induction i with
  | zero =>
    change (s.spDramAddr &&& 0xfffff8).toNat % 8 = 0
    rw [Word.toNat_and_fffff8]
    omega
  | succ i ih =>
    have hin := s.dmaAt_inSpace x toRsp i
    have hn := dmaRowLen_mod (dmaLen_mod x) hin.off8 hin.off
    rw [dmaAt_succ]
    simp only [dmaRow]
    omega

/-- The address registers do not take part in a row. -/
def setAddrs (s : Rsp) (a b : Word) : Rsp := { s with spMemAddr := a, spDramAddr := b }

theorem dmaRow_setAddrs (len skip bank : ℕ) (toRsp : Bool) (a b : Word) (d : DmaState) :
    dmaRow len skip bank toRsp { d with s := d.s.setAddrs a b } =
      { dmaRow len skip bank toRsp d with s := (dmaRow len skip bank toRsp d).s.setAddrs a b } := by
  simp only [dmaRow]
  split_ifs <;> rfl

theorem dmaRows_setAddrs (len skip bank : ℕ) (toRsp : Bool) (a b : Word) (n : ℕ) (d : DmaState) :
    (dmaRow len skip bank toRsp)^[n] { d with s := d.s.setAddrs a b } =
      { (dmaRow len skip bank toRsp)^[n] d with
        s := ((dmaRow len skip bank toRsp)^[n] d).s.setAddrs a b } := by
  have hrow : Function.Semiconj (fun d : DmaState => { d with s := d.s.setAddrs a b })
      (dmaRow len skip bank toRsp) (dmaRow len skip bank toRsp) :=
    fun d => (dmaRow_setAddrs _ _ _ _ a b d).symm
  exact (hrow.iterate_right n d).symm

theorem toNat_spMemAddr_dma (s : Rsp) (x : Word) (toRsp : Bool) :
    (s.dma x toRsp).spMemAddr.toNat = s.dmaBank + (s.dmaRows x toRsp).off := by
  have ho := (s.dmaAt_inSpace x toRsp (dmaCount x)).off
  rw [← dmaRows_eq] at ho
  change (BitVec.ofNat 32 s.dmaBank ||| BitVec.ofNat 32 (s.dmaRows x toRsp).off).toNat = _
  have hoff : (s.dmaRows x toRsp).off % 2 ^ 32 = (s.dmaRows x toRsp).off :=
    Nat.mod_eq_of_lt (by omega)
  rw [BitVec.toNat_or, BitVec.toNat_ofNat, BitVec.toNat_ofNat, hoff]
  rcases s.dmaBank_cases with hb | hb
  · rw [hb, Nat.zero_mod, Nat.zero_or, Nat.zero_add]
  · rw [hb]
    -- the offset is below the bank bit, so the or is a sum
    exact (Nat.two_pow_add_eq_or_of_lt (i := 12) ho 1).symm

theorem toNat_spDramAddr_dma (s : Rsp) (x : Word) (toRsp : Bool) :
    (s.dma x toRsp).spDramAddr.toNat = (s.dmaRows x toRsp).dram := by
  have hd := (s.dmaAt_inSpace x toRsp (dmaCount x)).dram
  rw [← dmaRows_eq] at hd
  change (BitVec.ofNat 32 (s.dmaRows x toRsp).dram).toNat = _
  rw [BitVec.toNat_ofNat, Nat.mod_eq_of_lt (by omega)]

theorem dmaBank_dma (s : Rsp) (x : Word) (toRsp : Bool) : (s.dma x toRsp).dmaBank = s.dmaBank := by
  have ho := (s.dmaAt_inSpace x toRsp (dmaCount x)).off
  rw [← dmaRows_eq] at ho
  rw [dmaBank, Word.toNat_and_1000, toNat_spMemAddr_dma]
  rcases s.dmaBank_cases with hb | hb <;> omega

/-- Where a transfer stopped on doublewords, starting again masks nothing. -/
theorem dmaStart_dma (s : Rsp) (x : Word) (toRsp : Bool) (h8 : (s.dmaRows x toRsp).dram % 8 = 0) :
    (s.dma x toRsp).dmaStart = { s.dmaRows x toRsp with s := s.dma x toRsp } := by
  have hin := s.dmaAt_inSpace x toRsp (dmaCount x)
  rw [← dmaRows_eq] at hin
  obtain ⟨ho, ho8, hd⟩ := hin
  have hoff : (s.dma x toRsp).dmaStart.off = (s.dmaRows x toRsp).off := by
    change ((s.dma x toRsp).spMemAddr &&& 0xff8).toNat = _
    rw [Word.toNat_and_ff8, toNat_spMemAddr_dma]
    rcases s.dmaBank_cases with hb | hb <;> omega
  have hdram : (s.dma x toRsp).dmaStart.dram = (s.dmaRows x toRsp).dram := by
    change ((s.dma x toRsp).spDramAddr &&& 0xfffff8).toNat = _
    rw [Word.toNat_and_fffff8, toNat_spDramAddr_dma]
    omega
  exact congrArg₂ (DmaState.mk (s.dma x toRsp)) hoff hdram

def DmaState.finish (d : DmaState) (bank : ℕ) : Rsp :=
  d.s.setAddrs (BitVec.ofNat 32 bank ||| BitVec.ofNat 32 d.off) (BitVec.ofNat 32 d.dram)

theorem dma_eq (s : Rsp) (x : Word) (toRsp : Bool) :
    s.dma x toRsp = (s.dmaRows x toRsp).finish s.dmaBank := rfl

theorem finish_setAddrs (d : DmaState) (bank : ℕ) (a b : Word) :
    ({ d with s := d.s.setAddrs a b } : DmaState).finish bank = d.finish bank := rfl

/-- One transfer is two, with the rows shared out; every row starts on a doubleword of both
memories, and the bank stays. -/
structure DmaSplits (s : Rsp) (len skip : BitVec 12) (k₁ k₂ : ℕ) (toRsp : Bool) : Prop where
  whole : s.dma (lenReg len skip (k₁ + k₂)) toRsp =
    (s.dma (lenReg len skip k₁) toRsp).dma (lenReg len skip k₂) toRsp
  rows : ∀ i < k₁ + k₂, (s.dmaBank + (s.dmaAt (lenReg len skip (k₁ + k₂)) toRsp i).off) % 8 = 0 ∧
    (s.dmaAt (lenReg len skip (k₁ + k₂)) toRsp i).dram % 8 = 0
  bank : (s.dma (lenReg len skip (k₁ + k₂)) toRsp).spMemAddr &&& 0x1000 = s.spMemAddr &&& 0x1000

/-- The rows of the second part go on where the first stopped. -/
theorem dma_add (s : Rsp) (len skip : BitVec 12) {k₁ k₂ : ℕ} (h₁ : 1 ≤ k₁) (h₂ : 1 ≤ k₂)
    (h : k₁ + k₂ ≤ 256) (toRsp : Bool) (hskip : skip.toNat % 8 = 0) :
    s.dma (lenReg len skip (k₁ + k₂)) toRsp =
      (s.dma (lenReg len skip k₁) toRsp).dma (lenReg len skip k₂) toRsp := by
  have h8 : (s.dmaRows (lenReg len skip k₁) toRsp).dram % 8 = 0 := by
    rw [dmaRows_eq]
    exact s.dram_mod _ toRsp (by rw [dmaSkip_lenReg, hskip]) _
  have hrows : (s.dma (lenReg len skip k₁) toRsp).dmaRows (lenReg len skip k₂) toRsp =
      { s.dmaRows (lenReg len skip (k₁ + k₂)) toRsp with
        s := (s.dmaRows (lenReg len skip (k₁ + k₂)) toRsp).s.setAddrs
          (s.dma (lenReg len skip k₁) toRsp).spMemAddr
          (s.dma (lenReg len skip k₁) toRsp).spDramAddr } := by
    rw [dmaRows, dmaBank_dma, dmaStart_dma s _ toRsp h8]
    rw [dmaCount_lenReg len skip h₂ (by omega), dmaLen_lenReg, dmaSkip_lenReg]
    -- iterating over the rows of both is iterating over each in turn
    have hsplit : s.dmaRows (lenReg len skip (k₁ + k₂)) toRsp =
        (dmaRow ((len.setWidth 32 ||| 7) + 1 : Word).toNat skip.toNat s.dmaBank toRsp)^[k₂]
          (s.dmaRows (lenReg len skip k₁) toRsp) := by
      rw [dmaRows, dmaRows, dmaCount_lenReg len skip h₁ (by omega),
        dmaCount_lenReg len skip (by omega) h, dmaLen_lenReg, dmaLen_lenReg, dmaSkip_lenReg,
        dmaSkip_lenReg, Nat.add_comm, Function.iterate_add_apply]
    rw [hsplit]
    exact dmaRows_setAddrs _ _ _ _ _ _ k₂ _
  rw [dma_eq s (lenReg len skip (k₁ + k₂)), dma_eq (s.dma (lenReg len skip k₁) toRsp), hrows,
    dmaBank_dma, finish_setAddrs]

/-- One transfer splits between its rows exactly when the stride is whole doublewords: the
stride is the one field that is not rounded to them. -/
theorem dmaSplits_iff (s : Rsp) (len skip : BitVec 12) {k₁ k₂ : ℕ} (h₁ : 1 ≤ k₁) (h₂ : 1 ≤ k₂)
    (h : k₁ + k₂ ≤ 256) (toRsp : Bool) :
    DmaSplits s len skip k₁ k₂ toRsp ↔ skip.toNat % 8 = 0 := by
  constructor
  -- the first row is a multiple of 8, so the second is only if the stride is
  · intro hsp
    have h0 := (hsp.rows 0 (by omega)).2
    have h1 := (hsp.rows 1 (by omega)).2
    have hin := s.dmaAt_inSpace (lenReg len skip (k₁ + k₂)) toRsp 0
    have hn := dmaRowLen_mod (dmaLen_mod (lenReg len skip (k₁ + k₂))) hin.off8 hin.off
    rw [dmaAt_succ] at h1
    simp only [dmaRow, dmaSkip_lenReg] at h1
    omega
  · intro hskip
    refine ⟨s.dma_add len skip h₁ h₂ h toRsp hskip, fun i _ => ⟨?_, ?_⟩, ?_⟩
    · have hin := s.dmaAt_inSpace (lenReg len skip (k₁ + k₂)) toRsp i
      have h8 := hin.off8
      rcases s.dmaBank_cases with hb | hb <;> omega
    · exact s.dram_mod _ toRsp (by rw [dmaSkip_lenReg, hskip]) i
    · exact BitVec.eq_of_toNat_eq (s.dmaBank_dma (lenReg len skip (k₁ + k₂)) toRsp)

/-- Two rows of 8 bytes with 16 between them. -/
theorem dmaSplits_iff_sixteen :
    DmaSplits init 7 16 1 1 true ↔ (16 : BitVec 12).toNat % 8 = 0 :=
  dmaSplits_iff init 7 16 (by decide) (by decide) (by decide) true

/-- With one byte between them the second row starts at 9, and at 8 when it is a transfer of its
own. -/
theorem not_dmaSplits :
    (init.dma (lenReg 7 1 2) true).spDramAddr = 18 ∧
      ((init.dma (lenReg 7 1 1) true).dma (lenReg 7 1 1) true).spDramAddr = 17 ∧
      ¬ DmaSplits init 7 1 1 1 true := by
  have hone : (init.dma (lenReg 7 1 2) true).spDramAddr = 18 := by decide
  have htwo : ((init.dma (lenReg 7 1 1) true).dma (lenReg 7 1 1) true).spDramAddr = 17 := by decide
  refine ⟨hone, htwo, fun h => ?_⟩
  have heq := congrArg spDramAddr h.whole
  rw [htwo] at heq
  exact absurd (hone.symm.trans heq) (by decide)

end Rsp

end RspBt
