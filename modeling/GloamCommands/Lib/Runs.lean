/-
  GloamCommands.Lib.Runs — machines whose steps are partial functions, and their runs.

  A machine is `step : σ → ε → Option σ`: what an event does in a state, `none` where it
  cannot happen. A run is a list of events; every interleaving of a concurrent program
  is one list.
  - `run_invariant`: what holds at the start and is kept by a step holds after a run.
  - `run_along`: the same when every step of the run meets a condition (`Along`).
  - `run_relates`: a reflexive and transitive relation kept by a step holds along a run.
  - `run_map`, `along_map`: a machine that another follows step by step, through a map of
    the states.

  A state may carry a trace that its steps append to. `NeverAfter` and `Preceded` are the
  two things said of traces, each with the lemma that extends it by one event.
-/

import Mathlib.Data.List.Basic

namespace GloamCommands.Lib

variable {σ ε : Type}

/-! ## Runs -/

def run (step : σ → ε → Option σ) (s : σ) : List ε → Option σ
  | [] => some s
  | e :: es => (step s e).bind fun s' => run step s' es

/-- Every event of the run happens in a state where `G` allows it. -/
def Along (step : σ → ε → Option σ) (G : σ → ε → Prop) (s : σ) : List ε → Prop
  | [] => True
  | e :: es => G s e ∧ ∀ s', step s e = some s' → Along step G s' es

variable {step : σ → ε → Option σ}

theorem run_cons {s s' : σ} {e : ε} {es : List ε} (h : run step s (e :: es) = some s') :
    ∃ m, step s e = some m ∧ run step m es = some s' :=
  Option.bind_eq_some_iff.mp h

theorem run_append {s m s' : σ} {first second : List ε} (h : run step s first = some m)
    (h' : run step m second = some s') : run step s (first ++ second) = some s' := by
  induction first generalizing s with
  | nil =>
    cases h
    exact h'
  | cons e es ih =>
    obtain ⟨n, hn, hr⟩ := run_cons h
    show (step s e).bind (fun s' => run step s' (es ++ second)) = some s'
    rw [hn]
    exact ih hr

theorem run_split {s s' : σ} {first second : List ε} (h : run step s (first ++ second) = some s') :
    ∃ m, run step s first = some m ∧ run step m second = some s' := by
  induction first generalizing s with
  | nil => exact ⟨s, rfl, h⟩
  | cons e es ih =>
    obtain ⟨n, hn, hr⟩ := run_cons h
    obtain ⟨m, hm, hsecond⟩ := ih hr
    exact ⟨m, by show (step s e).bind _ = _; rw [hn]; exact hm, hsecond⟩

/-- A condition on steps that the run meets keeps an invariant that needs it. -/
theorem run_along {G : σ → ε → Prop} {I : σ → Prop}
    (hstep : ∀ s e s', I s → G s e → step s e = some s' → I s') {es : List ε} :
    ∀ {s s' : σ}, run step s es = some s' → Along step G s es → I s → I s' := by
  induction es with
  | nil =>
    intro s s' h _ hi
    rw [← Option.some.inj h]
    exact hi
  | cons e es ih =>
    intro s s' h hg hi
    obtain ⟨m, hm, hr⟩ := run_cons h
    exact ih hr (hg.2 m hm) (hstep s e m hi hg.1 hm)

theorem along_of_forall {G : σ → ε → Prop} (h : ∀ s e, G s e) (s : σ) (es : List ε) : Along step G s es := by
  induction es generalizing s with
  | nil => trivial
  | cons e es ih => exact ⟨h s e, fun s' _ => ih s'⟩

theorem along_append {G : σ → ε → Prop} {s m : σ} {first second : List ε} (hrun : run step s first = some m)
    (hfirst : Along step G s first) (hsecond : Along step G m second) : Along step G s (first ++ second) := by
  induction first generalizing s with
  | nil =>
    cases hrun
    exact hsecond
  | cons e es ih =>
    obtain ⟨n, hn, hr⟩ := run_cons hrun
    refine ⟨hfirst.1, fun s' hs => ?_⟩
    rw [hn] at hs
    cases hs
    exact ih hr (hfirst.2 n hn)

theorem along_imp {G H : σ → ε → Prop} (hgh : ∀ s e, G s e → H s e) {s : σ} {es : List ε}
    (h : Along step G s es) : Along step H s es := by
  induction es generalizing s with
  | nil => trivial
  | cons e es ih => exact ⟨hgh s e h.1, fun s' hs => ih (h.2 s' hs)⟩

/-- A condition that follows from another, in the states that the other one leads to. -/
theorem along_within {G H : σ → ε → Prop} {I : σ → Prop} (hstep : ∀ s e s', I s → G s e → step s e = some s' → I s')
    (hgh : ∀ s e, I s → G s e → H s e) {es : List ε} : ∀ {s : σ}, I s → Along step G s es → Along step H s es := by
  induction es with
  | nil =>
    intro s _ _
    trivial
  | cons e es ih =>
    intro s hi hg
    exact ⟨hgh s e hi hg.1, fun s' hs => ih (hstep s e s' hi hg.1 hs) (hg.2 s' hs)⟩

theorem run_invariant {I : σ → Prop} (hstep : ∀ s e s', I s → step s e = some s' → I s') {es : List ε} {s s' : σ}
    (h : run step s es = some s') (hi : I s) : I s' :=
  run_along (G := fun _ _ => True) (fun s e s' hi _ hs => hstep s e s' hi hs) h
    (along_of_forall (fun _ _ => trivial) s es) hi

theorem run_relates {I : σ → Prop} {R : σ → σ → Prop} (hrefl : ∀ s, R s s)
    (htrans : ∀ a b c, R a b → R b c → R a c) (hkeep : ∀ s e s', I s → step s e = some s' → I s')
    (hstep : ∀ s e s', I s → step s e = some s' → R s s') {es : List ε} :
    ∀ {s s' : σ}, run step s es = some s' → I s → R s s' := by
  induction es with
  | nil =>
    intro s s' h _
    rw [← Option.some.inj h]
    exact hrefl s
  | cons e es ih =>
    intro s s' h hi
    obtain ⟨m, hm, hr⟩ := run_cons h
    exact htrans s m s' (hstep s e m hi hm) (ih hr (hkeep s e m hi hm))

/-! ## Through a map -/

section Map

variable {τ : Type} {step' : τ → ε → Option τ} {f : σ → τ}

theorem run_map (hstep : ∀ s e s', step s e = some s' → step' (f s) e = some (f s')) {es : List ε} :
    ∀ {s s' : σ}, run step s es = some s' → run step' (f s) es = some (f s') := by
  induction es with
  | nil =>
    intro s s' h
    cases h
    rfl
  | cons e es ih =>
    intro s s' h
    obtain ⟨m, hm, hr⟩ := run_cons h
    rw [run, hstep s e m hm]
    exact ih hr

theorem along_map (hstep : ∀ s e s', step s e = some s' → step' (f s) e = some (f s')) {G : σ → ε → Prop}
    {H : τ → ε → Prop} (hgh : ∀ s e s', step s e = some s' → (H (f s) e ↔ G s e)) {es : List ε} :
    ∀ {s s' : σ}, run step s es = some s' → (Along step' H (f s) es ↔ Along step G s es) := by
  induction es with
  | nil => exact fun _ => Iff.rfl
  | cons e es ih =>
    intro s s' h
    obtain ⟨m, hm, hr⟩ := run_cons h
    unfold Along
    rw [hm, hstep s e m hm, hgh s e m hm]
    refine and_congr_right fun _ => ⟨fun hrest s' hs => ?_, fun hrest s' hs => ?_⟩
    · cases hs
      exact (ih hr).mp (hrest _ rfl)
    · cases hs
      exact (ih hr).mpr (hrest _ rfl)

end Map

/-! ## Traces -/

variable {α : Type}

def NeverAfter (P Q : α → Prop) (trace : List α) : Prop := trace.Pairwise fun earlier later => P earlier → ¬ Q later

def Preceded (P Q : α → Prop) (trace : List α) : Prop :=
  ∀ pre e post, trace = pre ++ e :: post → Q e → ∃ x ∈ pre, P x

theorem neverAfter_concat {P Q : α → Prop} {trace : List α} {e : α} (h : NeverAfter P Q trace)
    (he : Q e → ∀ x ∈ trace, ¬ P x) : NeverAfter P Q (trace ++ [e]) := by
  refine List.pairwise_append.mpr ⟨h, List.pairwise_singleton _ _, ?_⟩
  intro x hx y hy hp hq
  rw [List.mem_singleton] at hy
  subst hy
  exact he hq x hx hp

theorem preceded_nil (P Q : α → Prop) : Preceded P Q [] := by
  intro pre e post h
  simp at h

theorem preceded_concat {P Q : α → Prop} {trace : List α} {e : α} (h : Preceded P Q trace)
    (he : Q e → ∃ x ∈ trace, P x) : Preceded P Q (trace ++ [e]) := by
  intro pre e' post heq hq
  rcases List.eq_nil_or_concat post with rfl | ⟨post', last, rfl⟩
  · obtain ⟨rfl, hl⟩ := List.append_inj' heq rfl
    cases hl
    exact he hq
  · rw [List.concat_eq_append, ← List.cons_append, ← List.append_assoc] at heq
    obtain ⟨heq, -⟩ := List.append_inj' heq rfl
    exact h pre e' post' heq hq

end GloamCommands.Lib
