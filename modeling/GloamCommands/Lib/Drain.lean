/-
  GloamCommands.Lib.Drain — machines that come to rest when nothing new begins.

  Some events only wind up what has begun (`Winds`). If each of them lowers a measure, and
  one can happen wherever the machine is not at rest, then what has begun is finite and
  ends: a run of such events is no longer than the measure (`bounded`), it can always be
  continued to rest (`settles`), and where no such event can happen the machine is at rest
  (`stuck`). `sum_replace` is for measures that add up what each member has left.
-/

import GloamCommands.Lib.Runs
import Mathlib.Algebra.GroupWithZero.Nat

namespace GloamCommands.Lib

variable {σ ε α : Type}

structure Drains (step : σ → ε → Option σ) (Winds : ε → Prop) (I Rest : σ → Prop) (measure : σ → Nat) : Prop where
  keeps : ∀ {s s' : σ} {e : ε}, I s → Winds e → step s e = some s' → I s'
  lowers : ∀ {s s' : σ} {e : ε}, I s → Winds e → step s e = some s' → measure s' < measure s
  goes : ∀ {s : σ}, I s → ¬ Rest s → ∃ e s', Winds e ∧ step s e = some s'

namespace Drains

variable {step : σ → ε → Option σ} {Winds : ε → Prop} {I Rest : σ → Prop} {measure : σ → Nat}

theorem run_keeps (h : Drains step Winds I Rest measure) {es : List ε} :
    ∀ {s s' : σ}, I s → (∀ e ∈ es, Winds e) → run step s es = some s' → I s' := by
  induction es with
  | nil =>
    intro s s' hi _ hrun
    cases hrun
    exact hi
  | cons e es ih =>
    intro s s' hi hwinds hrun
    obtain ⟨m, hm, hrest⟩ := run_cons hrun
    have he := hwinds e (List.mem_cons_self ..)
    exact ih (h.keeps hi he hm) (fun x hx => hwinds x (List.mem_cons_of_mem _ hx)) hrest

theorem bounded (h : Drains step Winds I Rest measure) {es : List ε} :
    ∀ {s s' : σ}, I s → (∀ e ∈ es, Winds e) → run step s es = some s' → es.length + measure s' ≤ measure s := by
  induction es with
  | nil =>
    intro s s' _ _ hrun
    cases hrun
    simp
  | cons e es ih =>
    intro s s' hi hwinds hrun
    obtain ⟨m, hm, hrest⟩ := run_cons hrun
    have he := hwinds e (List.mem_cons_self ..)
    have hlower := h.lowers hi he hm
    have htail := ih (h.keeps hi he hm) (fun x hx => hwinds x (List.mem_cons_of_mem _ hx)) hrest
    rw [List.length_cons]
    omega

theorem stuck (h : Drains step Winds I Rest measure) {s : σ} (hi : I s) (hstuck : ∀ e, Winds e → step s e = none) :
    Rest s := by
  by_contra hrest
  obtain ⟨e, s', he, hs⟩ := h.goes hi hrest
  rw [hstuck e he] at hs
  cases hs

theorem settles (h : Drains step Winds I Rest measure) {s : σ} (hi : I s) :
    ∃ es s', (∀ e ∈ es, Winds e) ∧ run step s es = some s' ∧ Rest s' := by
  induction hn : measure s using Nat.strongRecOn generalizing s with
  | ind n ih =>
    by_cases hrest : Rest s
    · exact ⟨[], s, fun _ he => (by cases he), rfl, hrest⟩
    · obtain ⟨e, m, he, hm⟩ := h.goes hi hrest
      obtain ⟨es, s', hwinds, hrun, hrest'⟩ := ih (measure m) (hn ▸ h.lowers hi he hm) (h.keeps hi he hm) rfl
      refine ⟨e :: es, s', ?_, ?_, hrest'⟩
      · intro x hx
        rcases List.mem_cons.mp hx with rfl | hx
        · exact he
        · exact hwinds x hx
      · rw [run, hm]
        exact hrun

end Drains

theorem sum_replace (f : α → Nat) {members : List α} {i : Nat} {a : α} (b : α) (h : members[i]? = some a) :
    ((members.set i b).map f).sum + f a = (members.map f).sum + f b := by
  induction members generalizing i with
  | nil => simp at h
  | cons x rest ih =>
    cases i with
    | zero =>
      simp only [List.getElem?_cons_zero, Option.some.injEq] at h
      subst h
      simp only [List.set_cons_zero, List.map_cons, List.sum_cons]
      omega
    | succ i =>
      have hrest := ih (by simpa using h)
      simp only [List.set_cons_succ, List.map_cons, List.sum_cons]
      omega

end GloamCommands.Lib
