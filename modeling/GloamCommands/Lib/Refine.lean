/-
  GloamCommands.Lib.Refine — one machine explained by another.

  A run of a machine is watched: `look` is what a step shows, nothing where there is
  nothing to see. A second machine, `spec`, explains the run if it can do what was seen,
  one after another, and then is where the first one is, through the abstraction `abs`.
  - `run_observed`: what every step keeps together with what has been seen.
  - `refines_iff`: where the steps that `spec` explains are known exactly, and `spec`
    never catches up after another, so are the runs.
-/

import GloamCommands.Lib.Runs

namespace GloamCommands.Lib

variable {σ τ ε α : Type} {step : σ → ε → Option σ} {spec : τ → α → Option τ} {look : σ → ε → List α} {abs : σ → τ}

def observed (step : σ → ε → Option σ) (look : σ → ε → List α) (s : σ) : List ε → List α
  | [] => []
  | e :: es => look s e ++ ((step s e).map fun s' => observed step look s' es).getD []

theorem observed_cons {s s' : σ} {e : ε} (es : List ε) (h : step s e = some s') :
    observed step look s (e :: es) = look s e ++ observed step look s' es := by
  rw [observed, h]
  rfl

theorem run_observed {R : σ → List α → Prop}
    (hstep : ∀ s e s' seen, R s seen → step s e = some s' → R s' (seen ++ look s e)) {es : List ε} :
    ∀ {s s' : σ} {seen : List α}, run step s es = some s' → R s seen → R s' (seen ++ observed step look s es) := by
  induction es with
  | nil =>
    intro s s' seen h hr
    cases h
    rw [observed, List.append_nil]
    exact hr
  | cons e es ih =>
    intro s s' seen h hr
    obtain ⟨m, hm, hrest⟩ := run_cons h
    rw [observed_cons es hm, ← List.append_assoc]
    exact ih hrest (hstep s e m seen hr hm)

/-- A machine that another follows through a map shows what the other one does. -/
theorem observed_map {υ : Type} {step' : υ → ε → Option υ} {look' : υ → ε → List α} {f : σ → υ}
    (hstep : ∀ s e s', step s e = some s' → step' (f s) e = some (f s'))
    (hlook : ∀ s e s', step s e = some s' → look' (f s) e = look s e) {es : List ε} :
    ∀ {s s' : σ}, run step s es = some s' → observed step' look' (f s) es = observed step look s es := by
  induction es with
  | nil => exact fun _ => rfl
  | cons e es ih =>
    intro s s' h
    obtain ⟨m, hm, hr⟩ := run_cons h
    rw [observed_cons es hm, observed_cons es (hstep s e m hm), hlook s e m hm, ih hr]

section Exact

variable {I : σ → Prop} {G : σ → ε → Prop} {Lags : τ → σ → Prop}

/-- Once `spec` is behind, it stays behind. -/
theorem lags_run (hinv : ∀ s e s', I s → step s e = some s' → I s')
    (hlag : ∀ t t' s e s', I s → Lags t s → step s e = some s' → run spec t (look s e) = some t' → Lags t' s')
    {es : List ε} :
    ∀ {t t' : τ} {s s' : σ}, run step s es = some s' → I s → Lags t s →
      run spec t (observed step look s es) = some t' → Lags t' s' := by
  induction es with
  | nil =>
    intro t t' s s' h _ hl ht
    cases h
    cases ht
    exact hl
  | cons e es ih =>
    intro t t' s s' h hi hl ht
    obtain ⟨m, hm, hrest⟩ := run_cons h
    rw [observed_cons es hm] at ht
    obtain ⟨u, hu, hrun⟩ := run_split ht
    exact ih hrest (hinv s e m hi hm) (hlag t u s e m hi hl hm hu) hrun

/-- `spec` explains the step `e` of `s` exactly if `G` allows it. Then it explains a run
    exactly if `G` allows every step of it. -/
theorem refines_iff (hinv : ∀ s e s', I s → step s e = some s' → I s')
    (hgood : ∀ s e s', I s → G s e → step s e = some s' → run spec (abs s) (look s e) = some (abs s'))
    (hbad : ∀ t s e s', I s → ¬ G s e → step s e = some s' → run spec (abs s) (look s e) = some t → Lags t s')
    (hlag : ∀ t t' s e s', I s → Lags t s → step s e = some s' → run spec t (look s e) = some t' → Lags t' s')
    (hne : ∀ s, ¬ Lags (abs s) s) {es : List ε} :
    ∀ {s s' : σ}, run step s es = some s' → I s →
      (run spec (abs s) (observed step look s es) = some (abs s') ↔ Along step G s es) := by
  induction es with
  | nil =>
    intro s s' h _
    cases h
    exact ⟨fun _ => trivial, fun _ => rfl⟩
  | cons e es ih =>
    intro s s' h hi
    obtain ⟨m, hm, hrest⟩ := run_cons h
    have hmi := hinv s e m hi hm
    rw [observed_cons es hm]
    by_cases hg : G s e
    · have hfirst := hgood s e m hi hg hm
      constructor
      · intro hrun
        obtain ⟨t, ht, hlast⟩ := run_split hrun
        rw [hfirst] at ht
        cases ht
        refine ⟨hg, fun s' hs => ?_⟩
        rw [hm] at hs
        cases hs
        exact (ih hrest hmi).mp hlast
      · intro halong
        exact run_append hfirst ((ih hrest hmi).mpr (halong.2 m hm))
    · constructor
      · intro hrun
        obtain ⟨t, ht, hlast⟩ := run_split hrun
        exact absurd (lags_run hinv hlag hrest hmi (hbad t s e m hi hg hm ht) hlast) (hne s')
      · intro halong
        exact absurd halong.1 hg

end Exact

end GloamCommands.Lib
