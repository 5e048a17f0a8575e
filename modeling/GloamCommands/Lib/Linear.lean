/-
  GloamCommands.Lib.Linear — concurrent histories, and the sequential orders behind them.

  A history lists the invocations and responses of operations as they happen. The object
  itself is sequential: `seq` takes one operation with its outcome, `none` where it could
  not have had that outcome. An order linearizes a history (`Linearizes`) when the object
  takes its operations one after another with the outcomes that were responded, and what
  had responded before something was invoked is taken before it.
  - `linearizes_nil`, `invoke`, `take`, `respond`: an order grows with its history; an
    operation is taken at one moment between its invocation and its response.
-/

import GloamCommands.Lib.Runs
import Mathlib.Data.List.Nodup

namespace GloamCommands.Lib

variable {κ ρ σ : Type}

inductive Observed (κ ρ : Type) where
  | invoke (operation : κ)
  | respond (operation : κ) (outcome : ρ)
  deriving DecidableEq, Repr

def Observed.operation : Observed κ ρ → κ
  | invoke operation => operation
  | respond operation _ => operation

/-- `a` had responded when `b` was invoked. -/
def Precedes (history : List (Observed κ ρ)) (a b : κ) : Prop :=
  ∃ before after outcome, history = before ++ .invoke b :: after ∧ .respond a outcome ∈ before

def Earlier (order : List (κ × ρ)) (a b : κ) : Prop :=
  ∃ before after outcome, order = before ++ (b, outcome) :: after ∧ a ∈ before.map Prod.fst

/-- `order` explains `history`, and takes the object from `s` to `s'`. -/
structure Linearizes (seq : σ → κ × ρ → Option σ) (s : σ) (history : List (Observed κ ρ)) (order : List (κ × ρ))
    (s' : σ) : Prop where
  legal : run seq s order = some s'
  once : (order.map Prod.fst).Nodup
  invoked : ∀ x ∈ order, .invoke x.1 ∈ history
  responded : ∀ operation outcome, .respond operation outcome ∈ history → (operation, outcome) ∈ order
  realTime : ∀ a b, Precedes history a b → b ∈ order.map Prod.fst → Earlier order a b

variable {seq : σ → κ × ρ → Option σ} {s s' : σ} {history : List (Observed κ ρ)} {order : List (κ × ρ)}

/-- The last event of a history is no invocation that something precedes, or it is the
    one that is preceded. -/
theorem precedes_concat {e : Observed κ ρ} {a b : κ} (h : Precedes (history ++ [e]) a b) :
    Precedes history a b ∨ e = .invoke b ∧ ∃ outcome, .respond a outcome ∈ history := by
  obtain ⟨before, after, outcome, heq, ha⟩ := h
  rcases List.eq_nil_or_concat after with rfl | ⟨rest, last, rfl⟩
  · obtain ⟨rfl, hlast⟩ := List.append_inj' heq rfl
    exact .inr ⟨(List.cons.inj hlast).1, outcome, ha⟩
  · rw [List.concat_eq_append, ← List.cons_append, ← List.append_assoc] at heq
    exact .inl ⟨before, rest, outcome, (List.append_inj' heq rfl).1, ha⟩

theorem Earlier.concat {a b : κ} (h : Earlier order a b) (x : κ × ρ) : Earlier (order ++ [x]) a b := by
  obtain ⟨before, after, outcome, rfl, ha⟩ := h
  exact ⟨before, after ++ [x], outcome, by simp, ha⟩

theorem linearizes_nil (seq : σ → κ × ρ → Option σ) (s : σ) : Linearizes seq s [] [] s where
  legal := rfl
  once := List.nodup_nil
  invoked := by intro x hx; cases hx
  responded := by intro operation outcome h; cases h
  realTime := by intro a b _ hb; cases hb

theorem Linearizes.invoke (h : Linearizes seq s history order s') {operation : κ}
    (hnew : .invoke operation ∉ history) : Linearizes seq s (history ++ [.invoke operation]) order s' where
  legal := h.legal
  once := h.once
  invoked x hx := List.mem_append_left _ (h.invoked x hx)
  responded operation' outcome hr := by
    refine h.responded operation' outcome ?_
    simpa using hr
  realTime a b hp hb := by
    rcases precedes_concat hp with hp | ⟨he, -⟩
    · exact h.realTime a b hp hb
    · -- what is in the order was invoked before
      cases he
      obtain ⟨x, hx, rfl⟩ := List.mem_map.mp hb
      exact absurd (h.invoked x hx) hnew

/-- An operation is taken: after its invocation, once, with an outcome the object allows. -/
theorem Linearizes.take (h : Linearizes seq s history order s') {operation : κ} {outcome : ρ} {next : σ}
    (hinvoked : .invoke operation ∈ history) (hnew : operation ∉ order.map Prod.fst)
    (hstep : seq s' (operation, outcome) = some next) :
    Linearizes seq s history (order ++ [(operation, outcome)]) next where
  legal := run_append h.legal (by show (seq s' _).bind _ = _; rw [hstep]; rfl)
  once := by
    rw [List.map_append, List.map_singleton, ← List.concat_eq_append]
    exact List.Nodup.concat hnew h.once
  invoked x hx := by
    rcases List.mem_append.mp hx with hx | hx
    · exact h.invoked x hx
    · rw [List.mem_singleton.mp hx]
      exact hinvoked
  responded operation' outcome' hr := List.mem_append_left _ (h.responded operation' outcome' hr)
  realTime a b hp hb := by
    rw [List.map_append, List.mem_append] at hb
    rcases hb with hb | hb
    · exact (h.realTime a b hp hb).concat _
    · -- the new one comes last, after everything that has responded
      obtain rfl := List.mem_singleton.mp hb
      obtain ⟨before, after, outcome', heq, ha⟩ := hp
      have hmem : (a, outcome') ∈ order := h.responded a outcome' (by rw [heq]; exact List.mem_append_left _ ha)
      exact ⟨order, [], outcome, rfl, List.mem_map.mpr ⟨_, hmem, rfl⟩⟩

theorem Linearizes.respond (h : Linearizes seq s history order s') {operation : κ} {outcome : ρ}
    (hmem : (operation, outcome) ∈ order) : Linearizes seq s (history ++ [.respond operation outcome]) order s' where
  legal := h.legal
  once := h.once
  invoked x hx := List.mem_append_left _ (h.invoked x hx)
  responded operation' outcome' hr := by
    rcases List.mem_append.mp hr with hr | hr
    · exact h.responded operation' outcome' hr
    · cases List.mem_singleton.mp hr
      exact hmem
  realTime a b hp hb := by
    rcases precedes_concat hp with hp | ⟨he, -⟩
    · exact h.realTime a b hp hb
    · cases he

/-- An operation that has responded was taken with the outcome it responded. -/
theorem Linearizes.outcome_eq (h : Linearizes seq s history order s') {operation : κ} {outcome taken : ρ}
    (hresponded : .respond operation outcome ∈ history) (htaken : (operation, taken) ∈ order) : taken = outcome := by
  have hmem := h.responded operation outcome hresponded
  have hinj := List.inj_on_of_nodup_map h.once hmem htaken rfl
  exact (congrArg Prod.snd hinj).symm

end GloamCommands.Lib
