import RspBt.Bt.Closure
import RspBt.Bt.ContextIds

namespace RspBt

open Lib Contexts

@[reducible] def ids32 : Ids := ⟨pushCtx32⟩

variable {imem : Image} {n cx : ℕ} {a : Word} {roots : List Word} {i d : RspInsn} {w w' : Walk}
  {c c' : Contexts}

/-- A push that a table has room for is that of the code. -/
theorem pushCtx32_of_fits {id : ℕ} {link : Word} (h : (c.pushCtx id link).1.Fits) :
    c.pushCtx32 id link = c.pushCtx id link ∧ c.Fits := by
  have hsame : (c.pushCtx32 id link).1.contexts = (c.pushCtx id link).1.contexts := by
    unfold pushCtx32 pushCtx
    simp only
    split_ifs
    · rfl
    · cases c.contextIds (c.str id ++ [link]) with
      | none => rfl
      | some j => rfl
  refine ⟨pushCtx32_eq ?_, h.of_le (pushCtx_le c id link)⟩
  unfold Fits
  rw [hsame]
  exact h

namespace Walk

theorem targetCtx_ids32 {link : Word} (h : (targetCtx c i cx link).1.Fits) :
    @targetCtx ids32 c i cx link = targetCtx c i cx link ∧ c.Fits := by
  unfold targetCtx at h ⊢
  split_ifs at h ⊢
  · exact pushCtx32_of_fits h
  · exact ⟨rfl, h⟩

theorem transfer_ctxs (h : w.transfer i a cx = some w') :
    w'.ctxs = (targetCtx w.ctxs i cx ((a + 8) &&& 0xffc)).1 := by
  unfold transfer at h
  simp only at h
  split at h
  · cases h
  · obtain rfl := Option.some.inj h
    rw [(enqueued_foldl _ _).ctxs]
    split_ifs
    · unfold addRoot
      split_ifs <;> rfl
    · rfl

theorem transfer_ids32 (h : w.transfer i a cx = some w') (hw' : w'.ctxs.Fits) :
    @transfer ids32 w i a cx = some w' ∧ w.ctxs.Fits := by
  rw [transfer_ctxs h] at hw'
  obtain ⟨htgt, hfits⟩ := targetCtx_ids32 hw'
  refine ⟨?_, hfits⟩
  unfold transfer at h ⊢
  simp only at h ⊢
  rw [htgt]
  exact h

theorem runBody_ids32 {st : Walk × Word} {x : (Walk × Word) ⊕ Walk}
    (h : runBody imem cx st = some x)
    (hx : Sum.elim (fun st => st.1.ctxs.Fits) (fun w => w.ctxs.Fits) x) :
    @runBody ids32 imem cx st = some x ∧ st.1.ctxs.Fits := by
  obtain ⟨w, a⟩ := st
  unfold runBody at h ⊢
  simp only at h ⊢
  by_cases hwalked : (a, cx) ∈ w.walked
  · rw [if_pos hwalked] at h ⊢
    obtain rfl := Option.some.inj h
    exact ⟨rfl, hx⟩
  · rw [if_neg hwalked] at h ⊢
    cases hat : imem.at a with
    | none =>
      simp only [hat] at h ⊢
      obtain rfl := Option.some.inj h
      exact ⟨rfl, hx⟩
    | some i =>
      simp only [hat] at h ⊢
      split_ifs at h ⊢
      · obtain rfl := Option.some.inj h
        exact ⟨rfl, hx⟩
      · obtain rfl := Option.some.inj h
        exact ⟨rfl, hx⟩
      · obtain ⟨w', hw', rfl⟩ := Option.map_eq_some_iff.mp h
        obtain ⟨h32, hfits⟩ := transfer_ids32 hw' hx
        rw [h32]
        exact ⟨rfl, hfits⟩
      · obtain rfl := Option.some.inj h
        exact ⟨rfl, hx⟩

theorem drainBody_ids32 {x : Walk ⊕ Walk} (h : drainBody imem n w = some x)
    (hx : Sum.elim (fun w => w.ctxs.Fits) (fun w => w.ctxs.Fits) x) :
    @drainBody ids32 imem n w = some x ∧ w.ctxs.Fits := by
  unfold drainBody at h ⊢
  cases hwork : w.work with
  | nil =>
    simp only [hwork] at h ⊢
    obtain rfl := Option.some.inj h
    exact ⟨rfl, hx⟩
  | cons k rest =>
    simp only [hwork] at h ⊢
    obtain ⟨w', hloop, rfl⟩ := Option.map_eq_some_iff.mp h
    obtain ⟨h32, hfits⟩ := loop_back _ _ (fun _ _ => runBody_ids32) hloop hx
    rw [h32]
    exact ⟨rfl, hfits⟩

theorem rootsBody_ids32 {x : Walk ⊕ Walk} (h : rootsBody imem n w = some x)
    (hx : Sum.elim (fun w => w.ctxs.Fits) (fun w => w.ctxs.Fits) x) :
    @rootsBody ids32 imem n w = some x ∧ w.ctxs.Fits := by
  unfold rootsBody at h ⊢
  split_ifs at h ⊢
  · simp only at h ⊢
    obtain ⟨w', hloop, rfl⟩ := Option.map_eq_some_iff.mp h
    obtain ⟨h32, hfits⟩ := loop_back _ _ (fun _ _ => drainBody_ids32) hloop hx
    rw [(enqueued_round w).ctxs] at hfits
    rw [h32]
    exact ⟨rfl, hfits⟩
  · obtain rfl := Option.some.inj h
    exact ⟨rfl, hx⟩

theorem walk_ids32 (h : walk imem n roots = some w) (hw : w.ctxs.Fits) :
    @walk ids32 imem n roots = some w := by
  unfold walk at h ⊢
  obtain ⟨w', hloop, rfl⟩ := Option.map_eq_some_iff.mp h
  rw [(loop_back _ _ (fun _ _ => rootsBody_ids32) hloop hw).1]
  rfl

end Walk

theorem RspInsn.controlIR_ids32 {t : Term} (h : i.controlIR d c roots cx = some (c', t))
    (hc' : c'.Fits) : @RspInsn.controlIR ids32 i d c roots cx = some (c', t) ∧ c.Fits := by
  unfold RspInsn.controlIR at h ⊢
  cases hcls : i.cls
  case jal =>
    simp only [hcls] at h ⊢
    obtain ⟨rfl, rfl⟩ := Prod.mk.inj (Option.some.inj h)
    obtain ⟨h32, hfits⟩ := pushCtx32_of_fits hc'
    refine ⟨?_, hfits⟩
    change some ((c.pushCtx32 cx i.link).1, Term.jump i d (i.tAddr, (c.pushCtx32 cx i.link).2)) = _
    rw [h32]
    rfl
  case jr | jalr =>
    simp only [hcls] at h ⊢
    refine ⟨h, ?_⟩
    obtain ⟨cases, -, heq⟩ := Option.map_eq_some_iff.mp h
    obtain ⟨rfl, -⟩ := Prod.mk.inj heq
    exact hc'
  case branch | j =>
    simp only [hcls] at h ⊢
    refine ⟨h, ?_⟩
    obtain ⟨rfl, -⟩ := Prod.mk.inj (Option.some.inj h)
    exact hc'
  all_goals
    simp only [hcls] at h
    cases h

theorem emitBody_ids32 {st : Contexts × Word × List RspInsn}
    {x : (Contexts × Word × List RspInsn) ⊕ (Contexts × Block)} (h : emitBody imem w cx st = some x)
    (hx : Sum.elim (fun st => st.1.Fits) (fun r => r.1.Fits) x) :
    @emitBody ids32 imem w cx st = some x ∧ st.1.Fits := by
  obtain ⟨c, a, body⟩ := st
  unfold emitBody at h ⊢
  simp only at h ⊢
  cases hat : imem.at a with
  | none =>
    simp only [hat] at h ⊢
    obtain rfl := Option.some.inj h
    exact ⟨rfl, hx⟩
  | some i =>
    simp only [hat] at h ⊢
    by_cases hdata : imem.translatable a = false
    · rw [if_pos hdata] at h ⊢
      obtain rfl := Option.some.inj h
      exact ⟨rfl, hx⟩
    · rw [if_neg hdata] at h ⊢
      by_cases hctl : i.isControl
      · rw [if_pos hctl] at h ⊢
        cases hslot : imem.at (a + 4) with
        | none =>
          rw [hslot] at h
          cases h
        | some d =>
          simp only [hslot] at h ⊢
          obtain ⟨⟨c', t⟩, hir, rfl⟩ := Option.map_eq_some_iff.mp h
          obtain ⟨h32, hfits⟩ := RspInsn.controlIR_ids32 hir hx
          rw [h32]
          exact ⟨rfl, hfits⟩
      · rw [if_neg hctl] at h ⊢
        split_ifs at h ⊢
        all_goals
          obtain rfl := Option.some.inj h
          exact ⟨rfl, hx⟩

theorem emitLeaders_ids32 {ks : List Key} {bs : List (Key × Block)}
    (h : emitLeaders imem n w ks c = some (c', bs)) (hc' : c'.Fits) :
    @emitLeaders ids32 imem n w ks c = some (c', bs) ∧ c.Fits := by
  induction ks generalizing c bs with
  | nil =>
    obtain ⟨rfl, -⟩ := Prod.mk.inj (Option.some.inj h)
    exact ⟨h, hc'⟩
  | cons k ks ih =>
    unfold emitLeaders at h ⊢
    cases hk : emitLeader imem n w c k with
    | none =>
      simp only [hk] at h
      cases h
    | some r =>
      simp only [hk] at h
      obtain ⟨⟨c'', bs'⟩, hrest, heq⟩ := Option.map_eq_some_iff.mp h
      obtain ⟨rfl, rfl⟩ := Prod.mk.inj heq
      obtain ⟨hrest32, hr⟩ := ih hrest
      obtain ⟨hk32, hfits⟩ := loop_back _ _ (fun _ _ => emitBody_ids32) hk hr
      refine ⟨?_, hfits⟩
      have hleader : @emitLeader ids32 imem n w c k = some r := hk32
      simp only [hleader, hrest32, Option.map_some]

/-- Where the strings of a translation have an id each, 32 bits make no difference to it. -/
theorem compile_ids32 {T : Translation} (h : compile imem n roots = some T) (hT : T.ctxs.Fits) :
    @compile ids32 imem n roots = some T := by
  unfold compile at h ⊢
  cases hwalk : Walk.walk imem n roots with
  | none =>
    simp only [hwalk] at h
    cases h
  | some w =>
    simp only [hwalk] at h
    obtain ⟨⟨c, bs⟩, hemit, rfl⟩ := Option.map_eq_some_iff.mp h
    obtain ⟨hemit32, hw⟩ := emitLeaders_ids32 hemit hT
    simp only [Walk.walk_ids32 hwalk hw, hemit32, Option.map_some]

/-- A call of 0x10, and the return to the BREAK behind it. -/
def callImage : Image := (Rsp.withCode [0x0c, 0x00, 0x00, 0x04, 0x00, 0x00, 0x00, 0x00,
  0x00, 0x00, 0x00, 0x0d, 0x00, 0x00, 0x00, 0x00, 0x03, 0xe0, 0x00, 0x08]).imem

theorem compile_callImage : (compile callImage 8 [0]).isSome := rfl

def callT : Translation := (compile callImage 8 [0]).get compile_callImage

theorem contexts_callT : callT.ctxs.contexts = [[], [8]] := rfl

theorem compile_ids32_call : @compile ids32 callImage 8 [0] = some callT := by
  refine compile_ids32 (Option.some_get compile_callImage).symm ?_
  rw [Fits, contexts_callT]
  decide

end RspBt
