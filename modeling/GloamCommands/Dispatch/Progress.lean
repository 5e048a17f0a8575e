/-
  GloamCommands.Dispatch.Progress — a command's task, from await to await
  (`execute_command` in crates/gloam-commands/src/framework.rs).

  `executeCommand` runs an execution in one go. A spawned task may be left at each of its
  awaits, and what is dropped there goes no further. A `Point` is the await a task is in,
  with the values it keeps; `resume` is the code from one await to the next. A `Progress`
  cannot be built unless what it has performed is what the plan has before its point.
  - `run_alone`: a task that is resumed until it returns does what `executeCommand` does.
  - `whole_iff`: once its handler has begun, an execution is whole only if it has returned.
-/

import GloamCommands.Dispatch.Prepare
import GloamCommands.Lib.Runs

namespace GloamCommands.Dispatch

open Execution
open Lib (run run_append run_relates)

variable {D : Type}

/-! ## The awaits -/

/-- The await a task is in. -/
inductive Point where
  | policy
  | before (index : Nat)
  | handler
  | after (index : Nat) (result : Except Error Unit)
  | errorHandler (error : Error)
  | returned (result : Except Error Unit)

def Point.step : Point → Option Step
  | .policy => some .policy
  | .before index => some (.before index)
  | .handler => some .handler
  | .after index _ => some (.after index)
  | .errorHandler error => some (.errorHandler error)
  | .returned _ => none

namespace PreparedCommand

/-- The `match` on what the async block returned. -/
def conclude (command : PreparedCommand D) : Except Error Unit → Point
  | .ok () => .returned (.ok ())
  | .error error => if command.errorHandler.isSome then .errorHandler error else .returned (.error error)

def enterBefore (command : PreparedCommand D) (index : Nat) : Point :=
  if index < command.beforeHooks.length then .before index else .handler

def enterAfter (command : PreparedCommand D) (index : Nat) (result : Except Error Unit) : Point :=
  if index < command.afterHooks.length then .after index result else command.conclude result

/-- From an await, with what it gave, to the next. -/
def resume (command : PreparedCommand D) : Point → Except Error Unit → Point
  | .policy, .error error => command.conclude (.error error)
  | .policy, .ok () => command.enterBefore 0
  | .before _, .error error => command.conclude (.error error)
  | .before index, .ok () => command.enterBefore (index + 1)
  | .handler, result => command.enterAfter 0 result
  | .after index result, hookResult => command.enterAfter (index + 1) (if result.isOk then hookResult else result)
  | .errorHandler _, result => .returned result
  | .returned result, _ => .returned result

def await (command : PreparedCommand D) (clock : Instant) (w : Execution.World D) :
    Point → Option (Except Error Unit × Execution.World D)
  | .policy => some (performPolicy command.policy command.context clock w)
  | .before index => command.beforeHooks[index]?.map fun hook => perform (.before index) (hook command.context) w
  | .handler => some (perform .handler (command.handler command.context) w)
  | .after index _ => command.afterHooks[index]?.map fun hook => perform (.after index) (hook command.context) w
  | .errorHandler error =>
    command.errorHandler.map fun handler => perform (.errorHandler error) (handler command.context error) w
  | .returned _ => none

def plan (command : PreparedCommand D) : List Step :=
  Execution.plan command.beforeHooks.length command.afterHooks.length

/-- What follows the async block: the error handler, if there is one and an error. -/
def Handled (command : PreparedCommand D) (main tail : List Performed) (result : Except Error Unit) : Prop :=
  match firstError main, command.errorHandler with
  | none, _ => tail = [] ∧ result = .ok ()
  | some error, none => tail = [] ∧ result = .error error
  | some error, some _ => tail = [⟨.errorHandler error, result⟩]

/-- The plan up to index `k` has been performed, and nothing failed before the handler. -/
def Planned (command : PreparedCommand D) (k : Nat) (performed : List Performed) : Prop :=
  performed.map (·.step) = command.plan.take k ∧
    ∀ x ∈ performed.take (command.beforeHooks.length + 1), x.outcome = .ok ()

/-- What has been performed when a task is at a point. -/
def Traced (command : PreparedCommand D) (performed : List Performed) : Point → Prop
  | .policy => command.Planned 0 performed
  | .before index => index < command.beforeHooks.length ∧ command.Planned (index + 1) performed
  | .handler => command.Planned (command.beforeHooks.length + 1) performed
  | .after index result =>
    index < command.afterHooks.length ∧ command.Planned (command.beforeHooks.length + 2 + index) performed ∧
      errorOf result = firstError performed
  | .errorHandler error =>
    command.errorHandler ≠ none ∧ firstError performed = some error ∧
      Body command.beforeHooks.length command.afterHooks.length performed
  | .returned result =>
    ∃ main tail, performed = main ++ tail ∧ Body command.beforeHooks.length command.afterHooks.length main ∧
      command.Handled main tail result

/-! ## What has been performed -/

theorem plan_length (command : PreparedCommand D) :
    command.plan.length = command.beforeHooks.length + 2 + command.afterHooks.length := by
  simp only [plan, Execution.plan, List.cons_append, List.length_cons, List.length_append, hookSteps_length]
  omega

theorem plan_before (command : PreparedCommand D) {index : Nat} (h : index < command.beforeHooks.length) :
    command.plan[index + 1]? = some (.before index) := by
  simp only [plan, Execution.plan, List.cons_append, List.getElem?_cons_succ]
  rw [List.getElem?_append_left (by rw [hookSteps_length]; exact h)]
  simp [hookSteps, h]

theorem plan_handler (command : PreparedCommand D) : command.plan[command.beforeHooks.length + 1]? = some .handler := by
  simp only [plan, Execution.plan, List.cons_append, List.getElem?_cons_succ]
  rw [List.getElem?_append_right (by rw [hookSteps_length]), hookSteps_length, Nat.sub_self]
  rfl

theorem plan_after (command : PreparedCommand D) {index : Nat} (h : index < command.afterHooks.length) :
    command.plan[command.beforeHooks.length + 2 + index]? = some (.after index) := by
  have hindex : command.beforeHooks.length + 2 + index = command.beforeHooks.length + 1 + index + 1 := by omega
  simp only [plan, Execution.plan, List.cons_append, hindex, List.getElem?_cons_succ]
  rw [List.getElem?_append_right (by rw [hookSteps_length]; omega), hookSteps_length,
    show command.beforeHooks.length + 1 + index - command.beforeHooks.length = index + 1 by omega, List.getElem?_cons_succ]
  simp [hookSteps, h]

theorem planned_length {command : PreparedCommand D} {k : Nat} {performed : List Performed}
    (h : command.Planned k performed) (hk : k ≤ command.beforeHooks.length + 2 + command.afterHooks.length) :
    performed.length = k := by
  have hlength := congrArg List.length h.1
  rw [List.length_map, List.length_take, plan_length, Nat.min_eq_left hk] at hlength
  exact hlength

/-- The next step of the plan, without an error if it comes before the handler. -/
theorem planned_next {command : PreparedCommand D} {k : Nat} {performed : List Performed} {step : Step}
    {outcome : Except Error Unit} (h : command.Planned k performed) (hstep : command.plan[k]? = some step)
    (hok : k ≤ command.beforeHooks.length → outcome = .ok ()) :
    command.Planned (k + 1) (performed ++ [⟨step, outcome⟩]) := by
  obtain ⟨hlt, -⟩ := List.getElem?_eq_some_iff.mp hstep
  rw [plan_length] at hlt
  have hlength := planned_length h (Nat.le_of_lt hlt)
  refine ⟨?_, fun x hx => ?_⟩
  · rw [List.map_append, h.1, List.take_add_one, hstep]
    rfl
  · rw [List.take_append, List.mem_append, hlength] at hx
    rcases hx with hx | hx
    · exact h.2 x hx
    · by_cases hk : k ≤ command.beforeHooks.length
      · rw [List.mem_singleton.mp (List.mem_of_mem_take hx)]
        exact hok hk
      · rw [show command.beforeHooks.length + 1 - k = 0 by omega] at hx
        cases hx

theorem planned_ok {command : PreparedCommand D} {k : Nat} {performed : List Performed} (h : command.Planned k performed)
    (hk : k ≤ command.beforeHooks.length + 1) : ∀ x ∈ performed, x.outcome = .ok () := by
  have hlength := planned_length h (by omega)
  intro x hx
  refine h.2 x ?_
  rw [List.take_of_length_le (by omega)]
  exact hx

theorem planned_body {command : PreparedCommand D} {performed : List Performed}
    (h : command.Planned (command.beforeHooks.length + 2 + command.afterHooks.length) performed) :
    Body command.beforeHooks.length command.afterHooks.length performed := by
  have hlength := planned_length h (Nat.le_refl _)
  have hsteps := h.1
  rw [← plan_length, List.take_length] at hsteps
  have hdone : (performed.take (command.beforeHooks.length + 1)).length = command.beforeHooks.length + 1 := by
    rw [List.length_take]
    omega
  rw [← List.take_append_drop (command.beforeHooks.length + 1) performed] at hsteps ⊢
  exact .started hdone hsteps h.2

theorem conclude_traced {command : PreparedCommand D} {main : List Performed} {result : Except Error Unit}
    (hbody : Body command.beforeHooks.length command.afterHooks.length main) (hresult : errorOf result = firstError main) :
    command.Traced main (command.conclude result) := by
  rcases result with error | ⟨⟩
  · unfold conclude
    cases hhandler : command.errorHandler with
    | none =>
      refine ⟨main, [], (List.append_nil main).symm, hbody, ?_⟩
      simp only [Handled, hhandler, ← hresult, errorOf, and_self]
    | some handler => exact ⟨by rw [hhandler]; exact Option.some_ne_none _, hresult.symm, hbody⟩
  · refine ⟨main, [], (List.append_nil main).symm, hbody, ?_⟩
    simp only [Handled, ← hresult, errorOf, and_self]

/-- A failure before the handler is the last step of the plan. -/
theorem stopped_traced {command : PreparedCommand D} {k : Nat} {performed : List Performed} {step : Step} (error : Error)
    (h : command.Planned k performed) (hk : k ≤ command.beforeHooks.length) (hstep : command.plan[k]? = some step) :
    command.Traced (performed ++ [⟨step, .error error⟩]) (command.conclude (.error error)) := by
  have hok := planned_ok h (by omega)
  have hlength := planned_length h (by omega)
  refine conclude_traced (.stopped (by omega) ?_ hok) ?_
  · rw [List.map_append, h.1, hlength, show Execution.plan _ _ = command.plan from rfl, List.take_add_one, hstep]
    rfl
  · rw [firstError_append, firstError_none hok]
    rfl

theorem enterBefore_traced {command : PreparedCommand D} {index : Nat} {performed : List Performed}
    (h : command.Planned (index + 1) performed) (hindex : index ≤ command.beforeHooks.length) :
    command.Traced performed (command.enterBefore index) := by
  unfold enterBefore
  by_cases hlt : index < command.beforeHooks.length
  · rw [if_pos hlt]
    exact ⟨hlt, h⟩
  · rw [if_neg hlt]
    obtain rfl : index = command.beforeHooks.length := by omega
    exact h

theorem enterAfter_traced {command : PreparedCommand D} {index : Nat} {result : Except Error Unit}
    {performed : List Performed} (h : command.Planned (command.beforeHooks.length + 2 + index) performed)
    (hindex : index ≤ command.afterHooks.length) (hresult : errorOf result = firstError performed) :
    command.Traced performed (command.enterAfter index result) := by
  unfold enterAfter
  by_cases hlt : index < command.afterHooks.length
  · rw [if_pos hlt]
    exact ⟨hlt, h, hresult⟩
  · rw [if_neg hlt]
    obtain rfl : index = command.afterHooks.length := by omega
    exact conclude_traced (planned_body h) hresult

theorem resume_traced {command : PreparedCommand D} {performed : List Performed} {point : Point} {step : Step}
    (outcome : Except Error Unit) (h : command.Traced performed point) (hstep : point.step = some step) :
    command.Traced (performed ++ [⟨step, outcome⟩]) (command.resume point outcome) := by
  cases point with
  | policy =>
    cases hstep
    rcases outcome with error | ⟨⟩
    · exact stopped_traced error h (Nat.zero_le _) rfl
    · exact enterBefore_traced (planned_next h rfl fun _ => rfl) (Nat.zero_le _)
  | before index =>
    cases hstep
    obtain ⟨hlt, h⟩ := h
    rcases outcome with error | ⟨⟩
    · exact stopped_traced error h hlt (plan_before command hlt)
    · exact enterBefore_traced (planned_next h (plan_before command hlt) fun _ => rfl) hlt
  | handler =>
    cases hstep
    refine enterAfter_traced (planned_next h (plan_handler command) fun hle => absurd hle (by omega)) (Nat.zero_le _) ?_
    rw [firstError_append, firstError_none (planned_ok h (Nat.le_refl _))]
    rcases outcome with error | ⟨⟩ <;> rfl
  | after index result =>
    cases hstep
    obtain ⟨hlt, h, hresult⟩ := h
    have hlate : ¬ command.beforeHooks.length + 2 + index ≤ command.beforeHooks.length := by omega
    refine enterAfter_traced (planned_next h (plan_after command hlt) fun hle => absurd hle hlate) hlt ?_
    rw [firstError_append, ← hresult]
    rcases result with error | ⟨⟩
    · rfl
    · rcases outcome with error | ⟨⟩ <;> rfl
  | errorHandler error =>
    cases hstep
    obtain ⟨hhandler, herror, hbody⟩ := h
    refine ⟨performed, [⟨.errorHandler error, outcome⟩], rfl, hbody, ?_⟩
    obtain ⟨handler, hhandler⟩ := Option.ne_none_iff_exists'.mp hhandler
    simp only [Handled, herror, hhandler]
  | returned => cases hstep

theorem await_some {command : PreparedCommand D} {performed : List Performed} {point : Point} {step : Step}
    (clock : Instant) (w : Execution.World D) (h : command.Traced performed point) (hstep : point.step = some step) :
    ∃ outcome w', command.await clock w point = some (outcome, w') := by
  cases point with
  | policy => exact ⟨_, _, rfl⟩
  | before index => exact ⟨_, _, by rw [await, List.getElem?_eq_getElem h.1]; rfl⟩
  | handler => exact ⟨_, _, rfl⟩
  | after index result => exact ⟨_, _, by rw [await, List.getElem?_eq_getElem h.1]; rfl⟩
  | errorHandler error =>
    obtain ⟨handler, hhandler⟩ := Option.ne_none_iff_exists'.mp h.1
    exact ⟨_, _, by rw [await, hhandler]; rfl⟩
  | returned result => cases hstep

end PreparedCommand

/-! ## Progress -/

/-- A task that has been polled. -/
structure Progress (D : Type) where
  command : PreparedCommand D
  point : Point
  performed : List Performed
  traced : command.Traced performed point

namespace Progress

def start (command : PreparedCommand D) : Progress D :=
  ⟨command, .policy, [], rfl, fun _ h => absurd (List.mem_of_mem_take h) List.not_mem_nil⟩

def advance (p : Progress D) (clock : Instant) (w : Execution.World D) : Option (Progress D × Execution.World D) :=
  match h : p.point.step, p.command.await clock w p.point with
  | some step, some (outcome, w) =>
    some (⟨p.command, p.command.resume p.point outcome, p.performed ++ [⟨step, outcome⟩],
      PreparedCommand.resume_traced outcome p.traced h⟩, w)
  | _, _ => none

/-- The user handler has been started. -/
def Begun (p : Progress D) : Prop := p.point.step = some .handler ∨ ∃ x ∈ p.performed, x.step = .handler

/-- The resumes that an execution whose handler has been started takes, at least, until it
    is whole. -/
def owed (p : Progress D) : Nat :=
  match p.point with
  | .handler => p.command.afterHooks.length + 1
  | .after index _ => p.command.afterHooks.length - index
  | .errorHandler _ => if p.performed.any (·.step == .handler) then 1 else 0
  | _ => 0

/-- What has been performed is all of the plan, and the error handler if it is due. -/
def Whole (p : Progress D) : Prop :=
  ∃ main tail result, p.performed = main ++ tail ∧ main.map (·.step) = p.command.plan ∧ p.command.Handled main tail result

theorem advance_eq {p : Progress D} {clock : Instant} {w w' : Execution.World D} {step : Step}
    {outcome : Except Error Unit} (hstep : p.point.step = some step)
    (hawait : p.command.await clock w p.point = some (outcome, w')) :
    ∃ next, p.advance clock w = some (next, w') ∧ next.command = p.command ∧
      next.point = p.command.resume p.point outcome ∧ next.performed = p.performed ++ [⟨step, outcome⟩] := by
  unfold advance
  split
  · rename_i step' outcome' w'' hstep' hawait'
    rw [hstep] at hstep'
    rw [hawait] at hawait'
    cases hstep'
    cases hawait'
    exact ⟨_, rfl, rfl, rfl, rfl⟩
  · rename_i hnone
    exact absurd hawait (hnone step outcome w' hstep)

theorem advance_inv {p next : Progress D} {clock : Instant} {w w' : Execution.World D}
    (h : p.advance clock w = some (next, w')) :
    next.command = p.command ∧ ∃ step outcome, p.point.step = some step ∧
      p.command.await clock w p.point = some (outcome, w') ∧ next.performed = p.performed ++ [⟨step, outcome⟩] := by
  unfold advance at h
  split at h
  · rename_i step outcome w'' hstep hawait
    cases h
    exact ⟨rfl, step, outcome, hstep, hawait, rfl⟩
  · cases h

theorem advance_inv_point {p next : Progress D} {clock : Instant} {w w' : Execution.World D}
    (h : p.advance clock w = some (next, w')) : ∃ outcome, next.point = p.command.resume p.point outcome := by
  unfold advance at h
  split at h
  · cases h
    exact ⟨_, rfl⟩
  · cases h

theorem advance_some (p : Progress D) (clock : Instant) (w : Execution.World D) (h : ∀ result, p.point ≠ .returned result) :
    ∃ next w', p.advance clock w = some (next, w') ∧ next.command = p.command ∧
      ∃ step outcome, p.point.step = some step ∧ next.point = p.command.resume p.point outcome := by
  have hstep : ∃ step, p.point.step = some step := by
    cases hpoint : p.point with
    | returned result => exact absurd hpoint (h result)
    | _ => exact ⟨_, rfl⟩
  obtain ⟨step, hstep⟩ := hstep
  obtain ⟨outcome, w', hawait⟩ := PreparedCommand.await_some clock w p.traced hstep
  obtain ⟨next, hadvance, hcommand, hpoint, -⟩ := advance_eq hstep hawait
  exact ⟨next, w', hadvance, hcommand, step, outcome, hstep, hpoint⟩

/-! ## Whole executions -/

theorem handler_not_early {command : PreparedCommand D} {k : Nat} (hk : k ≤ command.beforeHooks.length) :
    Step.handler ∉ command.plan.take (k + 1) := by
  intro h
  rw [PreparedCommand.plan, plan_take _ hk, List.mem_cons] at h
  rcases h with h | h
  · cases h
  · obtain ⟨index, -, h⟩ := List.mem_map.mp (List.mem_of_mem_take h)
    cases h

theorem planned_not_whole {command : PreparedCommand D} {k : Nat} {main tail : List Performed}
    (h : command.Planned k (main ++ tail)) (hk : k < command.beforeHooks.length + 2 + command.afterHooks.length) :
    main.map (·.step) ≠ command.plan := by
  intro hmain
  have hlength := PreparedCommand.planned_length h (Nat.le_of_lt hk)
  have hplan := congrArg List.length hmain
  rw [List.length_map, PreparedCommand.plan_length] at hplan
  rw [List.length_append] at hlength
  omega

/-- A body is all of the plan, or a part of it before the handler. -/
theorem body_cases {before after : Nat} {main : List Performed} (h : Body before after main) :
    main.map (·.step) = Execution.plan before after ∨
      ∃ k ≤ before, main.map (·.step) = (Execution.plan before after).take (k + 1) := by
  cases h with
  | stopped hlength hsteps => exact .inr ⟨_, hlength, hsteps⟩
  | started _ hsteps => exact .inl hsteps

theorem handled_step {command : PreparedCommand D} {main tail : List Performed} {result : Except Error Unit}
    (h : command.Handled main tail result) : ∀ x ∈ tail, x.step ≠ .handler := by
  intro x hx hstep
  unfold PreparedCommand.Handled at h
  split at h
  · rw [h.1] at hx
    cases hx
  · rw [h.1] at hx
    cases hx
  · rw [h, List.mem_singleton] at hx
    rw [hx] at hstep
    cases hstep

theorem whole_returned {p : Progress D} (h : p.Whole) : ∃ result, p.point = .returned result := by
  obtain ⟨main, tail, result, hperformed, hmain, hhandled⟩ := h
  have htraced := p.traced
  rw [hperformed] at htraced
  cases hpoint : p.point with
  | returned result => exact ⟨result, rfl⟩
  | policy =>
    rw [hpoint] at htraced
    exact absurd hmain (planned_not_whole htraced (by omega))
  | before index =>
    rw [hpoint] at htraced
    obtain ⟨hlt, htraced⟩ := htraced
    exact absurd hmain (planned_not_whole htraced (by omega))
  | handler =>
    rw [hpoint] at htraced
    exact absurd hmain (planned_not_whole htraced (by omega))
  | after index kept =>
    rw [hpoint] at htraced
    obtain ⟨hlt, htraced, -⟩ := htraced
    exact absurd hmain (planned_not_whole htraced (by omega))
  | errorHandler error =>
    rw [hpoint] at htraced
    obtain ⟨hhandler, herror, hbody⟩ := htraced
    have hsteps : (main ++ tail).map (·.step) = main.map (·.step) ++ tail.map (·.step) := List.map_append
    rcases body_cases hbody with hfull | ⟨k, hk, hpart⟩
    · -- the plan leaves no room for the error handler that is due
      rw [hsteps, hmain] at hfull
      have htail : tail = [] := List.map_eq_nil_iff.mp (List.append_right_eq_self.mp hfull)
      obtain ⟨handler, hhandler⟩ := Option.ne_none_iff_exists'.mp hhandler
      rw [htail, List.append_nil] at herror
      simp only [PreparedCommand.Handled, herror, hhandler, htail] at hhandled
      cases hhandled
    · have hlength := congrArg List.length hpart
      rw [hsteps, hmain, List.length_append, PreparedCommand.plan_length, List.length_take] at hlength
      omega

/-- Once the handler has begun, an execution is whole exactly if it has returned. -/
theorem whole_iff {p : Progress D} (h : p.Begun) : p.Whole ↔ ∃ result, p.point = .returned result := by
  refine ⟨whole_returned, fun hreturned => ?_⟩
  obtain ⟨result, hpoint⟩ := hreturned
  have htraced := p.traced
  rw [hpoint] at htraced
  obtain ⟨main, tail, hperformed, hbody, hhandled⟩ := htraced
  refine ⟨main, tail, result, hperformed, ?_, hhandled⟩
  rcases body_cases hbody with hfull | ⟨k, hk, hpart⟩
  · exact hfull
  · rcases h with hstep | ⟨x, hx, hstep⟩
    · rw [hpoint] at hstep
      cases hstep
    · rw [hperformed, List.mem_append] at hx
      rcases hx with hx | hx
      · have hmem := List.mem_map_of_mem (f := (·.step)) hx
        rw [hpart, hstep] at hmem
        exact absurd hmem (handler_not_early hk)
      · exact absurd hstep (handled_step hhandled x hx)

/-- Nothing is owed before the handler has been started, and once the execution has returned. -/
theorem owed_zero {p : Progress D} : p.owed = 0 ↔ (p.Begun → ∃ result, p.point = .returned result) := by
  have htraced := p.traced
  have hearly : ∀ {k : Nat}, k ≤ p.command.beforeHooks.length → p.performed.map (·.step) = p.command.plan.take k →
      p.point.step ≠ some .handler → ¬ p.Begun := by
    intro k hk hsteps hpoint hbegun
    rcases hbegun with hstep | ⟨x, hx, hstep⟩
    · exact hpoint hstep
    · have hmem := List.mem_map_of_mem (f := (·.step)) hx
      rw [hsteps, hstep] at hmem
      exact handler_not_early hk (List.mem_of_mem_take (show _ ∈ (p.command.plan.take (k + 1)).take k by
        rw [List.take_take, Nat.min_eq_left (Nat.le_succ k)]
        exact hmem))
  cases hpoint : p.point with
  | policy =>
    rw [hpoint] at htraced
    have hno := hearly (Nat.zero_le _) htraced.1 (by rw [hpoint]; exact fun h => by cases h)
    exact ⟨fun _ hbegun => absurd hbegun hno, fun _ => by simp [owed, hpoint]⟩
  | before index =>
    rw [hpoint] at htraced
    have hno := hearly htraced.1 htraced.2.1 (by rw [hpoint]; exact fun h => by cases h)
    exact ⟨fun _ hbegun => absurd hbegun hno, fun _ => by simp [owed, hpoint]⟩
  | handler =>
    refine ⟨fun h => ?_, fun h => ?_⟩
    · simp [owed, hpoint] at h
    · obtain ⟨_, hreturned⟩ := h (.inl (by rw [hpoint]; rfl))
      cases hreturned
  | after index kept =>
    rw [hpoint] at htraced
    obtain ⟨hlt, ⟨hsteps, -⟩, -⟩ := htraced
    refine ⟨fun h => ?_, fun h => ?_⟩
    · simp only [owed, hpoint] at h
      omega
    · have hmem : Step.handler ∈ p.performed.map (·.step) := by
        rw [hsteps]
        refine List.mem_of_getElem? (i := p.command.beforeHooks.length + 1) ?_
        rw [List.getElem?_take_of_lt (by omega)]
        exact PreparedCommand.plan_handler p.command
      obtain ⟨x, hx, hstep⟩ := List.mem_map.mp hmem
      obtain ⟨_, hreturned⟩ := h (.inr ⟨x, hx, hstep⟩)
      cases hreturned
  | errorHandler error =>
    simp only [owed, hpoint]
    refine ⟨fun h hbegun => ?_, fun h => ?_⟩
    · rcases hbegun with hstep | ⟨x, hx, hstep⟩
      · rw [hpoint] at hstep
        cases hstep
      · rw [if_pos (List.any_eq_true.mpr ⟨x, hx, by rw [hstep]; exact beq_self_eq_true _⟩)] at h
        cases h
    · refine if_neg fun hany => ?_
      obtain ⟨x, hx, hstep⟩ := List.any_eq_true.mp hany
      obtain ⟨_, hreturned⟩ := h (.inr ⟨x, hx, beq_iff_eq.mp hstep⟩)
      cases hreturned
  | returned result => exact ⟨fun _ _ => ⟨result, rfl⟩, fun _ => by simp [owed, hpoint]⟩

/-- One resume pays for one. -/
theorem advance_owed {p next : Progress D} {clock : Instant} {w w' : Execution.World D}
    (h : p.advance clock w = some (next, w')) : p.owed ≤ next.owed + 1 := by
  obtain ⟨hcommand, -⟩ := advance_inv h
  obtain ⟨outcome, hnext⟩ := advance_inv_point h
  have henter : ∀ index result, next.point = p.command.enterAfter index result →
      p.command.afterHooks.length - index ≤ next.owed := by
    intro index result hpoint
    unfold PreparedCommand.enterAfter at hpoint
    split at hpoint
    · simp only [owed, hpoint, hcommand, Nat.le_refl]
    · omega
  cases hpoint : p.point with
  | handler =>
    rw [hpoint] at hnext
    have hpaid := henter 0 _ hnext
    simp only [owed, hpoint]
    unfold owed at hpaid
    omega
  | after index kept =>
    rw [hpoint] at hnext
    have hpaid := henter (index + 1) _ hnext
    simp only [owed, hpoint]
    unfold owed at hpaid
    omega
  | errorHandler error =>
    simp only [owed, hpoint]
    split <;> omega
  | _ => simp [owed, hpoint]

/-! ## Undisturbed -/

def resumed (s : Progress D × Execution.World D) (clock : Instant) : Option (Progress D × Execution.World D) :=
  s.1.advance clock s.2

def Reaches (s s' : Progress D × Execution.World D) (clock : Instant) : Prop :=
  ∃ n, run resumed s (List.replicate n clock) = some s'

theorem Reaches.refl (s : Progress D × Execution.World D) (clock : Instant) : Reaches s s clock := ⟨0, rfl⟩

theorem Reaches.trans {a b c : Progress D × Execution.World D} {clock : Instant} (hab : Reaches a b clock)
    (hbc : Reaches b c clock) : Reaches a c clock := by
  obtain ⟨n, hn⟩ := hab
  obtain ⟨m, hm⟩ := hbc
  refine ⟨n + m, ?_⟩
  rw [List.replicate_add]
  exact run_append hn hm

theorem Reaches.single {s s' : Progress D × Execution.World D} {clock : Instant} (h : resumed s clock = some s') :
    Reaches s s' clock := by
  refine ⟨1, ?_⟩
  rw [List.replicate_one, run, h]
  rfl

theorem reaches_next {p : Progress D} {clock : Instant} {w w' : Execution.World D} {point : Point} {step : Step}
    {outcome : Except Error Unit} (hpoint : p.point = point) (hstep : point.step = some step)
    (hawait : p.command.await clock w point = some (outcome, w')) :
    ∃ next, Reaches (p, w) (next, w') clock ∧ next.command = p.command ∧
      next.point = p.command.resume point outcome := by
  subst hpoint
  obtain ⟨next, hnext, hcommand, hpoint, -⟩ := advance_eq hstep hawait
  exact ⟨next, .single hnext, hcommand, hpoint⟩

theorem await_trace {command : PreparedCommand D} {clock : Instant} {w w' : Execution.World D} {point : Point}
    {step : Step} {outcome : Except Error Unit} (hstep : point.step = some step)
    (hawait : command.await clock w point = some (outcome, w')) : w'.trace = w.trace ++ [⟨step, outcome⟩] := by
  cases point with
  | policy =>
    cases hstep
    cases hawait
    exact performPolicy_trace ..
  | handler =>
    cases hstep
    cases hawait
    exact perform_trace ..
  | returned => cases hstep
  | _ =>
    cases hstep
    obtain ⟨future, -, hawait⟩ := Option.map_eq_some_iff.mp hawait
    cases hawait
    exact perform_trace ..

/-- Every await adds the same to the task's trace and the world's. -/
theorem reaches_trace {s s' : Progress D × Execution.World D} {clock : Instant} (h : Reaches s s' clock) :
    ∃ steps, s'.1.performed = s.1.performed ++ steps ∧ s'.2.trace = s.2.trace ++ steps := by
  obtain ⟨n, hn⟩ := h
  refine run_relates (I := fun _ => True)
    (R := fun s s' => ∃ steps, s'.1.performed = s.1.performed ++ steps ∧ s'.2.trace = s.2.trace ++ steps)
    ?_ ?_ (fun _ _ _ _ _ => trivial) ?_ hn trivial
  · exact fun s => ⟨[], (List.append_nil _).symm, (List.append_nil _).symm⟩
  · intro a b c ⟨first, hp, ht⟩ ⟨second, hp', ht'⟩
    exact ⟨first ++ second, by rw [hp', hp, List.append_assoc], by rw [ht', ht, List.append_assoc]⟩
  · intro s now s' _ hresumed
    obtain ⟨-, step, outcome, hstep, hawait, hperformed⟩ := advance_inv hresumed
    exact ⟨[⟨step, outcome⟩], hperformed, await_trace hstep hawait⟩

/-- The hook a loop is at, and those that are left. -/
theorem drop_uncons {hooks rest : List (CommandHook D)} {hook : CommandHook D} {index : Nat}
    (h : hooks.drop index = hook :: rest) :
    hooks[index]? = some hook ∧ index < hooks.length ∧ hooks.drop (index + 1) = rest := by
  have hget : hooks[index]? = some hook := by rw [← List.head?_drop, h, List.head?_cons]
  refine ⟨hget, (List.getElem?_eq_some_iff.mp hget).1, ?_⟩
  rw [← List.tail_drop, h, List.tail_cons]

theorem before_alone (clock : Instant) (hooks : List (CommandHook D)) : ∀ (index : Nat) {p : Progress D}
    (w : Execution.World D), p.command.beforeHooks.drop index = hooks → p.point = p.command.enterBefore index →
    ∃ next, Reaches (p, w) (next, (runBefore p.command.context index hooks w).2) clock ∧ next.command = p.command ∧
      next.point = match (runBefore p.command.context index hooks w).1 with
        | .ok () => .handler
        | .error error => p.command.conclude (.error error) := by
  induction hooks with
  | nil =>
    intro index p w hdrop hpoint
    have hlength : p.command.beforeHooks.length ≤ index := List.drop_eq_nil_iff.mp hdrop
    rw [PreparedCommand.enterBefore, if_neg (Nat.not_lt.mpr hlength)] at hpoint
    exact ⟨p, .refl _ _, rfl, hpoint⟩
  | cons hook rest ih =>
    intro index p w hdrop hpoint
    obtain ⟨hget, hlt, hrest⟩ := drop_uncons hdrop
    rw [PreparedCommand.enterBefore, if_pos hlt] at hpoint
    have hawait : p.command.await clock w (.before index) = some (perform (.before index) (hook p.command.context) w) := by
      rw [PreparedCommand.await, hget, Option.map_some]
    cases hperform : perform (.before index) (hook p.command.context) w with
    | mk outcome w₁ =>
      rw [hperform] at hawait
      obtain ⟨next, hreaches, hcommand, hnext⟩ := reaches_next hpoint rfl hawait
      rcases outcome with error | ⟨⟩
      · have hr : runBefore p.command.context index (hook :: rest) w = (.error error, w₁) := by
          simp only [runBefore, hperform]
        rw [hr]
        exact ⟨next, hreaches, hcommand, hnext⟩
      · have hr : runBefore p.command.context index (hook :: rest) w =
            runBefore p.command.context (index + 1) rest w₁ := by simp only [runBefore, hperform]
        rw [← hcommand] at hrest hnext
        obtain ⟨last, hlast, hcommand', hpoint'⟩ := ih (index + 1) w₁ hrest hnext
        rw [hcommand] at hlast hcommand' hpoint'
        rw [hr]
        exact ⟨last, hreaches.trans hlast, hcommand', hpoint'⟩

theorem after_alone (clock : Instant) (hooks : List (CommandHook D)) : ∀ (index : Nat) (result : Except Error Unit)
    {p : Progress D} (w : Execution.World D), p.command.afterHooks.drop index = hooks →
    p.point = p.command.enterAfter index result →
    ∃ next, Reaches (p, w) (next, (runAfter p.command.context index result hooks w).2) clock ∧ next.command = p.command ∧
      next.point = p.command.conclude (runAfter p.command.context index result hooks w).1 := by
  induction hooks with
  | nil =>
    intro index result p w hdrop hpoint
    have hlength : p.command.afterHooks.length ≤ index := List.drop_eq_nil_iff.mp hdrop
    rw [PreparedCommand.enterAfter, if_neg (Nat.not_lt.mpr hlength)] at hpoint
    exact ⟨p, .refl _ _, rfl, hpoint⟩
  | cons hook rest ih =>
    intro index result p w hdrop hpoint
    obtain ⟨hget, hlt, hrest⟩ := drop_uncons hdrop
    rw [PreparedCommand.enterAfter, if_pos hlt] at hpoint
    have hawait : p.command.await clock w (.after index result) =
        some (perform (.after index) (hook p.command.context) w) := by
      rw [PreparedCommand.await, hget, Option.map_some]
    cases hperform : perform (.after index) (hook p.command.context) w with
    | mk outcome w₁ =>
      rw [hperform] at hawait
      obtain ⟨next, hreaches, hcommand, hnext⟩ := reaches_next hpoint rfl hawait
      have hr : runAfter p.command.context index result (hook :: rest) w =
          runAfter p.command.context (index + 1) (if result.isOk then outcome else result) rest w₁ := by
        simp only [runAfter, hperform]
      rw [← hcommand] at hrest hnext
      obtain ⟨last, hlast, hcommand', hpoint'⟩ := ih (index + 1) _ w₁ hrest hnext
      rw [hcommand] at hlast hcommand' hpoint'
      rw [hr]
      exact ⟨last, hreaches.trans hlast, hcommand', hpoint'⟩

theorem body_alone (command : PreparedCommand D) (clock : Instant) (w : Execution.World D) :
    let body := executeBody command.handler command.policy command.context clock command.beforeHooks command.afterHooks w
    ∃ next, Reaches (start command, w) (next, body.2) clock ∧ next.command = command ∧
      next.point = command.conclude body.1 := by
  intro body
  cases hpolicy : performPolicy command.policy command.context clock w with
  | mk outcome w₁ =>
    have hawait : command.await clock w .policy = some (outcome, w₁) := congrArg some hpolicy
    obtain ⟨first, hfirst, hcommand, hpoint⟩ := @reaches_next D (start command) _ _ _ .policy _ _ rfl rfl hawait
    change first.command = command at hcommand
    change first.point = command.resume .policy outcome at hpoint
    rcases outcome with error | ⟨⟩
    · have hb : body = (.error error, w₁) := by simp only [body, executeBody, hpolicy]
      rw [hb]
      exact ⟨first, hfirst, hcommand, hpoint⟩
    · subst hcommand
      obtain ⟨second, hsecond, hcommand, hpoint⟩ := before_alone clock _ 0 w₁ rfl hpoint
      cases hbefore : runBefore first.command.context 0 first.command.beforeHooks w₁ with
      | mk outcome w₂ =>
        rw [List.drop_zero, hbefore] at hsecond hpoint
        rcases outcome with error | ⟨⟩
        · have hb : body = (.error error, w₂) := by simp only [body, executeBody, hpolicy, hbefore]
          rw [hb]
          exact ⟨second, hfirst.trans hsecond, hcommand, hpoint⟩
        · cases hhandler : perform .handler (first.command.handler first.command.context) w₂ with
          | mk result w₃ =>
            have hawait : second.command.await clock w₂ .handler = some (result, w₃) := by
              rw [hcommand]
              exact congrArg some hhandler
            obtain ⟨third, hthird, hcommand', hpoint'⟩ := reaches_next hpoint rfl hawait
            rw [← hcommand'] at hpoint'
            obtain ⟨last, hlast, hcommand'', hpoint''⟩ := after_alone clock _ 0 result w₃ rfl hpoint'
            rw [List.drop_zero, hcommand', hcommand] at hlast hpoint''
            have hb : body = runAfter first.command.context 0 result first.command.afterHooks w₃ := by
              simp only [body, executeBody, hpolicy, hbefore, hhandler]
            rw [hb]
            exact ⟨last, hfirst.trans (hsecond.trans (hthird.trans hlast)), hcommand''.trans (hcommand'.trans hcommand), hpoint''⟩

/-- A task resumed until it returns returns what `executeCommand` does, in the same world,
    and what it has performed is what the execution adds to the trace. -/
theorem run_alone (command : PreparedCommand D) (clock : Instant) (w : Execution.World D) :
    ∃ last, Reaches (start command, w) (last, (command.execute clock w).2) clock ∧
      last.point = .returned (command.execute clock w).1 ∧
      (command.execute clock w).2.trace = w.trace ++ last.performed := by
  have hreturns : ∃ last, Reaches (start command, w) (last, (command.execute clock w).2) clock ∧
      last.point = .returned (command.execute clock w).1 := by
    obtain ⟨next, hnext, hcommand, hpoint⟩ := body_alone command clock w
    cases hbody : executeBody command.handler command.policy command.context clock command.beforeHooks
        command.afterHooks w with
    | mk outcome w₁ =>
      rw [hbody] at hnext hpoint
      rcases outcome with error | ⟨⟩
      · cases hhandler : command.errorHandler with
        | none =>
          have he : command.execute clock w = (.error error, w₁) := by
            simp only [PreparedCommand.execute, executeCommand, hbody, hhandler]
          rw [he]
          rw [PreparedCommand.conclude, hhandler] at hpoint
          exact ⟨next, hnext, hpoint⟩
        | some handler =>
          have he : command.execute clock w = perform (.errorHandler error) (handler command.context error) w₁ := by
            simp only [PreparedCommand.execute, executeCommand, hbody, hhandler]
          rw [PreparedCommand.conclude, hhandler] at hpoint
          have hawait : next.command.await clock w₁ (.errorHandler error) =
              some (perform (.errorHandler error) (handler command.context error) w₁) := by
            rw [hcommand, PreparedCommand.await, hhandler, Option.map_some]
          obtain ⟨last, hlast, -, hpoint'⟩ := reaches_next hpoint rfl hawait
          rw [he]
          exact ⟨last, hnext.trans hlast, hpoint'⟩
      · have he : command.execute clock w = (.ok (), w₁) := by
          simp only [PreparedCommand.execute, executeCommand, hbody]
        rw [he]
        exact ⟨next, hnext, hpoint⟩
  obtain ⟨last, hlast, hpoint⟩ := hreturns
  obtain ⟨steps, hperformed, htrace⟩ := reaches_trace hlast
  change last.performed = steps at hperformed
  rw [← hperformed] at htrace
  exact ⟨last, hlast, hpoint, htrace⟩

end Progress

end GloamCommands.Dispatch
