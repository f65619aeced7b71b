import RspBt.R4300.CallGraph

namespace RspBt.R4300

open Lib

namespace Cfg

variable {e : Env} {n m : ℕ} {roots new : List Word} {rss : List (List Word)} {c c' : Cfg}

def discoverOn (e : Env) (n : ℕ) (c : Cfg) (roots : List Word) : Option Cfg :=
  loop (discoverBody e n) n (c, roots)

def discovers (e : Env) (n : ℕ) (c : Cfg) (rss : List (List Word)) : Option Cfg :=
  rss.foldlM (discoverOn e n) c

theorem Inv.start (h : Inv e n roots (c, [])) (new : List Word) : Inv e n (roots ++ new) (c, new) := by
  have hfound {g : Word} (hg : (c.funcs g).isSome ∨ g ∈ ([] : List Word)) : (c.funcs g).isSome :=
    hg.resolve_right List.not_mem_nil
  have hroot {g : Word} (hg : Called c.funcs roots g) : Called c.funcs (roots ++ new) g := by
    induction hg with
    | root hr => exact .root (List.mem_append_left _ hr)
    | call _ hf hc ih => exact .call ih hf hc
  refine ⟨h.built, fun r hr => ?_, fun f fn hf t ht => ?_, fun f hf => ?_, h.nodup, h.builds⟩
  · exact (List.mem_append.mp hr).imp (fun hr => hfound (h.rooted r hr)) id
  · exact .inl (hfound (h.calls f fn hf t ht))
  · rcases hf with hf | hf
    · exact hroot (h.called f (.inl hf))
    · exact .root (List.mem_append_right _ hf)

/-- Each call keeps the invariant, for the roots of all calls so far. -/
theorem discovers_inv (h : Inv e n roots (c, [])) (hl : Logged e n c)
    (hd : discovers e n c rss = some c') :
    Inv e n (roots ++ rss.flatten) (c', []) ∧ Logged e n c' := by
  induction rss generalizing c roots with
  | nil =>
    obtain rfl := Option.some.inj hd
    rw [List.flatten_nil, List.append_nil]
    exact ⟨h, hl⟩
  | cons new rss ih =>
    obtain ⟨c₁, hc₁, hrest⟩ := Option.bind_eq_some_iff.mp hd
    rw [List.flatten_cons, ← List.append_assoc]
    exact ih (search_inv (h.start new) hc₁) (search_logged hl hc₁) hrest

theorem Inv.ends (h : Inv e n roots (c, [])) (hbuild : ∀ f, ∃ r, build e n f = some r)
    (new : List Word) : ∃ M c', loop (discoverBody e n) M (c, new) = some c' ∧
      Inv e n (roots ++ new) (c', []) :=
  loop_search (fun (st : Cfg × List Word) f => (st.1.funcs f).isSome) (fun st => st.2.length)
    (Inv e n (roots ++ new)) (fun c => Inv e n (roots ++ new) (c, []))
    (fun _ hst => hst.turn hbuild) (h.start new)

/-- One number of turns is enough for every call. -/
theorem discovers_total {B : ℕ} (hB : ∀ f, ∃ r, ∀ n, B ≤ n → build e n f = some r)
    (hc : Inv e B roots (c, [])) (rss : List (List Word)) :
    ∃ N c', ∀ n, N ≤ n → discovers e n c rss = some c' := by
  have hbody {n : ℕ} (hn : B ≤ n) : discoverBody e n = discoverBody e B := by
    refine discoverBody_congr fun f => ?_
    obtain ⟨r, hr⟩ := hB f
    rw [hr n hn, hr B le_rfl]
  induction rss generalizing c roots with
  | nil => exact ⟨0, c, fun n hn => rfl⟩
  | cons new rss ih =>
    obtain ⟨M, c₁, hc₁, hinv⟩ := hc.ends (fun f => (hB f).imp fun r hr => hr B le_rfl) new
    obtain ⟨N, c', hN⟩ := ih hinv
    refine ⟨max N (max M B), c', fun n hn => ?_⟩
    have hfirst : discoverOn e n c new = some c₁ := by
      rw [discoverOn, hbody (by omega)]
      exact loop_mono_fuel (by omega) hc₁
    rw [discovers, List.foldlM_cons, hfirst]
    exact hN n (by omega)

/-- A graph built in several calls is the one built in one, from the roots of all of them; and
where one ends so do the others. -/
theorem discovers_flatten (e : Env) (rss : List (List Word)) :
    (∀ n m c c', discovers e n init rss = some c → discover e m rss.flatten = some c' →
      SameFound c c') ∧
    (e.Unmapped → ∃ N c c', ∀ n, N ≤ n → discovers e n init rss = some c ∧
      discover e n rss.flatten = some c') := by
  refine ⟨fun n m c c' hd hd' => ?_, fun h => ?_⟩
  · obtain ⟨hinv, hlog⟩ := discovers_inv (inv_init e n []) logged_init hd
    exact hinv.sameFound hlog (discover_inv hd') (search_logged logged_init hd') fun g => Iff.rfl
  · obtain ⟨B, hB⟩ := builds_total h
    obtain ⟨N, c, hN⟩ := discovers_total hB (inv_init e B []) rss
    obtain ⟨M, c', hM⟩ := discovers_total hB (inv_init e B []) [rss.flatten]
    refine ⟨max N M, c, c', fun n hn => ⟨hN n (by omega), ?_⟩⟩
    have hone := hM n (by omega)
    rw [discovers, List.foldlM_cons] at hone
    obtain ⟨c₁, hc₁, hlast⟩ := Option.bind_eq_some_iff.mp hone
    obtain rfl := Option.some.inj hlast
    exact hc₁

/-- The callee first, and its caller in a second call. -/
theorem discovers_oneCall : discovers oneCall 8 init [[0x40], [0]] = some
    ((init.record 0x40 oneCallCallee ⟨[], 0, 0, 0⟩).record 0 oneCallFunc ⟨[], 0, 0, 0⟩) := by
  have hfirst : discoverBody oneCall 8 (init, [0x40]) =
      some (.inl (init.record 0x40 oneCallCallee ⟨[], 0, 0, 0⟩, [])) := by
    simp only [discoverBody, build_oneCallCallee]
    rfl
  have hsecond : discoverBody oneCall 8 (init.record 0x40 oneCallCallee ⟨[], 0, 0, 0⟩, [0]) =
      some (.inl ((init.record 0x40 oneCallCallee ⟨[], 0, 0, 0⟩).record 0 oneCallFunc
        ⟨[], 0, 0, 0⟩, [])) := by
    simp only [discoverBody, build_oneCall]
    rfl
  have hone : discoverOn oneCall 8 init [0x40] =
      some (init.record 0x40 oneCallCallee ⟨[], 0, 0, 0⟩) := by
    rw [discoverOn, loop_next hfirst]
    rfl
  have htwo : discoverOn oneCall 8 (init.record 0x40 oneCallCallee ⟨[], 0, 0, 0⟩) [0] =
      some ((init.record 0x40 oneCallCallee ⟨[], 0, 0, 0⟩).record 0 oneCallFunc ⟨[], 0, 0, 0⟩) := by
    rw [discoverOn, loop_next hsecond]
    rfl
  simp only [discovers, List.foldlM_cons, List.foldlM_nil, hone, Option.bind_eq_bind,
    Option.bind_some, htwo]
  rfl

theorem discovers_flatten_oneCall : ∃ c c', discovers oneCall 8 init [[0x40], [0]] = some c ∧
    discover oneCall 8 [0x40, 0] = some c' ∧ SameFound c c' :=
  ⟨_, _, discovers_oneCall, discover_oneCall_swap,
    (discovers_flatten oneCall [[0x40], [0]]).1 8 8 _ _ discovers_oneCall discover_oneCall_swap⟩

end Cfg

end RspBt.R4300
