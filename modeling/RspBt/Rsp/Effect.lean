import RspBt.Rsp.Imem

namespace RspBt.Rsp

open Lib

def isStore (w : Word) : Bool := w.op = 0x28 ∨ w.op = 0x29 ∨ w.op = 0x2b ∨ w.op = 0x3a

inductive Effect (s : Rsp) (w : Word) : Rsp → Prop
  | reg (i : BitVec 5) (x : Word) : Effect s w (s.setR i x)
  | vec (v : BitVec 5 → Lanes 8 16) : Effect s w { s with v := v }
  | flags (which : BitVec 5) (x : BitVec 16) : Effect s w (s.setVflags which x)
  | lanes {op : BitVec 4 → BitVec 16 → BitVec 16 → Lane → Lane} (h : vecOp w.fn = some op) :
      Effect s w (s.vecLoop op w.vecE w.rd w.rt w.sa)
  | store (m : ℕ → Byte) (hw : isStore w) (h : KeepsImem s { s with mem := m }) :
      Effect s w { s with mem := m }
  | cop0 {s' : Rsp} (hop : w.op = 0x10) (hrs : w.rs = 4) (h : s.mtc0 w.rd (s.r w.rt) = some s') :
      Effect s w s'

def OnlyVec (s s' : Rsp) : Prop := s' = { s with v := s'.v }

theorem OnlyVec.refl (s : Rsp) : OnlyVec s s := rfl

theorem OnlyVec.trans {s t u : Rsp} (h : OnlyVec s t) (h' : OnlyVec t u) : OnlyVec s u := by
  rw [OnlyVec] at h h' ⊢
  rw [h', h]

theorem onlyVec_foldl {ι : Type*} {f : Rsp → ι → Rsp} (hf : ∀ s i, OnlyVec s (f s i)) (l : List ι)
    (s : Rsp) : OnlyVec s (l.foldl f s) := by
  induction l generalizing s with
  | nil => exact .refl s
  | cons i l ih => exact (hf s i).trans (ih (f s i))

theorem onlyVec_lwc2 {s s' : Rsp} {w : Word} (h : s.lwc2 w = some s') : OnlyVec s s' := by
  unfold lwc2 at h
  split at h
  case h_6 =>
    simp only at h
    split_ifs at h
    obtain rfl := Option.some.inj h
    refine onlyVec_foldl (fun s i => ?_) _ s
    rfl
  case h_10 => cases h
  all_goals obtain rfl := Option.some.inj h
  case h_1 => rfl
  all_goals
    refine onlyVec_foldl (fun s i => ?_) _ s
    rfl

def OnlyMem (s s' : Rsp) : Prop := s' = { s with mem := s'.mem }

theorem OnlyMem.refl (s : Rsp) : OnlyMem s s := rfl

theorem OnlyMem.trans {s t u : Rsp} (h : OnlyMem s t) (h' : OnlyMem t u) : OnlyMem s u := by
  rw [OnlyMem] at h h' ⊢
  rw [h', h]

theorem onlyMem_foldl {ι : Type*} {f : Rsp → ι → Rsp} (hf : ∀ s i, OnlyMem s (f s i)) (l : List ι)
    (s : Rsp) : OnlyMem s (l.foldl f s) := by
  induction l generalizing s with
  | nil => exact .refl s
  | cons i l ih => exact (hf s i).trans (ih (f s i))

theorem onlyMem_swc2 {s s' : Rsp} {w : Word} (h : s.swc2 w = some s') : OnlyMem s s' := by
  unfold swc2 at h
  split at h
  case h_9 => cases h
  all_goals obtain rfl := Option.some.inj h
  case h_1 => rfl
  all_goals
    refine onlyMem_foldl (fun s i => ?_) _ s
    rfl

theorem Effect.of_onlyMem {s s' : Rsp} {w : Word} (hw : isStore w) (hm : OnlyMem s s')
    (hk : KeepsImem s s') : Effect s w s' := by
  rw [hm]
  rw [hm] at hk
  exact .store _ hw hk

theorem effect_cop2 {s s' : Rsp} {w : Word} (h : s.cop2 w = some s') : Effect s w s' := by
  unfold cop2 at h
  split_ifs at h
  · unfold cop2Move at h
    simp only at h
    split at h
    case h_5 => cases h
    all_goals obtain rfl := Option.some.inj h
    case h_1 | h_3 => exact .reg _ _
    case h_2 => split_ifs <;> exact .vec _
    case h_4 => exact .flags _ _
  · obtain ⟨op, hop, rfl⟩ := Option.map_eq_some_iff.mp h
    exact .lanes hop

/-- A straight-line instruction has one effect. -/
theorem effect_straight {s s' : Rsp} {w : Word} (h : s.straight w = some s') : Effect s w s' := by
  unfold straight at h
  simp only at h
  split at h
  case h_1 =>
    obtain ⟨x, -, rfl⟩ := Option.map_eq_some_iff.mp h
    exact .reg _ _
  case h_10 hop =>
    unfold cop0 at h
    split_ifs at h with hmf hmt
    · obtain ⟨x, -, rfl⟩ := Option.map_eq_some_iff.mp h
      exact .reg _ _
    · exact .cop0 hop hmt h
  case h_11 => exact effect_cop2 h
  case h_20 =>
    rw [onlyVec_lwc2 h]
    exact .vec _
  case h_21 hop => exact .of_onlyMem (by simp [isStore, hop]) (onlyMem_swc2 h) (keepsImem_swc2 h)
  case h_22 => cases h
  all_goals obtain rfl := Option.some.inj h
  case h_17 hop => exact .of_onlyMem (by simp [isStore, hop]) rfl (keepsImem_wr8 _ _ _)
  case h_18 hop => exact .of_onlyMem (by simp [isStore, hop]) rfl (keepsImem_wr16 _ _ _)
  case h_19 hop => exact .of_onlyMem (by simp [isStore, hop]) rfl (keepsImem_wr32 _ _ _)
  all_goals exact .reg _ _

/-- And so does every instruction of the switch; a transfer links at most. -/
theorem effect_switch {s : Rsp} {nextPc w : Word} {f : Flow} (h : s.switch nextPc w = some f) :
    Effect s w f.s := by
  have hnone : Effect s w s := .vec s.v
  have hstraight {aft : Word} (h : (s.straight w).map (fun s' => (⟨s', aft, false⟩ : Flow)) = some f) :
      Effect s w f.s := by
    obtain ⟨s', hs, rfl⟩ := Option.map_eq_some_iff.mp h
    exact effect_straight hs
  unfold switch at h
  simp only at h
  split at h
  case h_1 =>
    split at h
    case h_4 => exact hstraight h
    all_goals obtain rfl := Option.some.inj h
    case h_2 => exact .reg _ _
    all_goals exact hnone
  case h_9 => exact hstraight h
  all_goals obtain rfl := Option.some.inj h
  case h_2 =>
    change Effect s w (if w.rt.getLsbD 4 then s.setR 31 ((nextPc + 4) &&& 0xffc) else s)
    split_ifs
    · exact .reg _ _
    · exact hnone
  case h_4 => exact .reg _ _
  all_goals exact hnone

/-- All but a COP0 write leave the image and its counter alone. -/
theorem Effect.keepsImem {s s' : Rsp} {w : Word} (h : Effect s w s') :
    (KeepsImem s s' ∧ s'.imemGen = s.imemGen) ∨
      (w.op = 0x10 ∧ w.rs = 4 ∧ s.mtc0 w.rd (s.r w.rt) = some s') := by
  cases h with
  | reg i x => exact .inl ⟨keepsImem_of_mem rfl, rfl⟩
  | vec v => exact .inl ⟨keepsImem_of_mem rfl, rfl⟩
  | flags which x =>
    refine .inl ⟨keepsImem_of_mem ?_, ?_⟩
    all_goals
      unfold setVflags
      split_ifs <;> rfl
  | lanes h => exact .inl ⟨keepsImem_of_mem rfl, rfl⟩
  | store m hw h => exact .inl ⟨h, rfl⟩
  | cop0 hop hrs h => exact .inr ⟨hop, hrs, h⟩

theorem keepsImem_straight {s s' : Rsp} {w : Word} (h : s.straight w = some s')
    (hg : s'.imemGen = s.imemGen) : KeepsImem s s' := by
  rcases (effect_straight h).keepsImem with ⟨hk, -⟩ | ⟨-, -, hm⟩
  · exact hk
  · exact keepsImem_mtc0 hm hg

end RspBt.Rsp
