/-
  GloamCommands.Dispatch.Observability — what the `tracing` feature shows of executions
  (crates/gloam-commands/src/observability.rs, `execute_command` in framework.rs).

  Each of the five functions records a path and a fixed message; without the feature they
  record nothing. `execute_command` calls them when it is first polled, when the async
  block is done, and when the error handler is: `emitted` stands beside `resume`, and has
  what is recorded on the way from one await to the next.
  - `report`: what the trace of an execution makes of the records.
  - `lifecycle_records`: in every managed run, each task has recorded exactly its report,
    with the path of a registered leaf, whatever the others did in between.
-/

import GloamCommands.Dispatch.Managed

namespace GloamCommands.Dispatch

open Execution

variable {D : Type}

/-! ## Records -/

inductive Level where
  | debug
  | warn
  deriving DecidableEq, Repr

structure Record where
  level : Level
  message : String
  commandPath : List String
  deriving DecidableEq, Repr

def commandStarted (path : List String) : Record := ⟨.debug, "slash command execution started", path⟩

def commandSucceeded (path : List String) : Record := ⟨.debug, "slash command execution completed", path⟩

def commandFailed (path : List String) : Record := ⟨.warn, "slash command execution failed", path⟩

def commandErrorHandled (path : List String) : Record := ⟨.debug, "slash command error handled", path⟩

def commandErrorHandlerFailed (path : List String) : Record := ⟨.warn, "slash command error handler failed", path⟩

namespace PreparedCommand

def concluded (command : PreparedCommand D) : Except Error Unit → List Record
  | .ok () => [commandSucceeded command.context.commandPath]
  | .error _ => [commandFailed command.context.commandPath]

def enteredAfter (command : PreparedCommand D) (index : Nat) (result : Except Error Unit) : List Record :=
  if index < command.afterHooks.length then [] else command.concluded result

/-- What is recorded from an await, with what it gave, to the next. -/
def emitted (command : PreparedCommand D) : Point → Except Error Unit → List Record
  | .policy, .error error => command.concluded (.error error)
  | .policy, .ok () => []
  | .before _, .error error => command.concluded (.error error)
  | .before _, .ok () => []
  | .handler, result => command.enteredAfter 0 result
  | .after index result, hookResult => command.enteredAfter (index + 1) (if result.isOk then hookResult else result)
  | .errorHandler _, result =>
    [if result.isOk then commandErrorHandled command.context.commandPath
      else commandErrorHandlerFailed command.context.commandPath]
  | .returned _, _ => []

end PreparedCommand

/-- What each task records. -/
def lifecycle : Watch D (Nat × Record) where
  started task command := [(task, commandStarted command.context.commandPath)]
  awaited task p clock world :=
    match p.command.await clock world p.point with
    | some (outcome, _) => (p.command.emitted p.point outcome).map fun record => (task, record)
    | none => []

/-! ## Reports -/

/-- What a task has to have recorded at a point, after the first error of its async block. -/
def PreparedCommand.report (command : PreparedCommand D) (point : Point) (error : Option Error) : List Record :=
  commandStarted command.context.commandPath ::
    match point with
    | .errorHandler _ => [commandFailed command.context.commandPath]
    | .returned result =>
      match error with
      | none => [commandSucceeded command.context.commandPath]
      | some _ =>
        commandFailed command.context.commandPath ::
          if command.errorHandler.isSome then
            [if result.isOk then commandErrorHandled command.context.commandPath
              else commandErrorHandlerFailed command.context.commandPath]
          else []
    | _ => []

def Progress.report (p : Progress D) : List Record := p.command.report p.point (firstError p.performed)

def recordsOf (task : Nat) (log : List (Nat × Record)) : List Record :=
  log.filterMap fun entry => if entry.1 = task then some entry.2 else none

theorem recordsOf_append (task : Nat) (log more : List (Nat × Record)) :
    recordsOf task (log ++ more) = recordsOf task log ++ recordsOf task more := List.filterMap_append

theorem recordsOf_self (task : Nat) (records : List Record) :
    recordsOf task (records.map fun record => (task, record)) = records := by
  induction records with
  | nil => rfl
  | cons record rest ih =>
    unfold recordsOf at ih ⊢
    simp only [List.map_cons, List.filterMap_cons, if_true, ih]

theorem recordsOf_other {task other : Nat} (h : other ≠ task) (records : List Record) :
    recordsOf task (records.map fun record => (other, record)) = [] := by
  unfold recordsOf
  rw [List.filterMap_eq_nil_iff]
  intro entry hentry
  obtain ⟨record, -, rfl⟩ := List.mem_map.mp hentry
  exact if_neg h

/-! ## From await to await -/

theorem advance_resume {p next : Progress D} {clock : Instant} {w w' : Execution.World D}
    (h : p.advance clock w = some (next, w')) :
    next.command = p.command ∧ ∃ step outcome, p.point.step = some step ∧
      p.command.await clock w p.point = some (outcome, w') ∧ next.point = p.command.resume p.point outcome ∧
      next.performed = p.performed ++ [⟨step, outcome⟩] := by
  obtain ⟨hcommand, step, outcome, hstep, hawait, hperformed⟩ := Progress.advance_inv h
  obtain ⟨next', hnext', -, hpoint, -⟩ := Progress.advance_eq hstep hawait
  rw [h] at hnext'
  cases hnext'
  exact ⟨hcommand, step, outcome, hstep, hawait, hpoint, hperformed⟩

/-- Where the async block is done, its conclusion is recorded. -/
theorem conclude_report (command : PreparedCommand D) (result : Except Error Unit) :
    command.report (command.conclude result) (errorOf result) =
      commandStarted command.context.commandPath :: command.concluded result := by
  rcases result with error | ⟨⟩
  · unfold PreparedCommand.conclude
    cases hhandler : command.errorHandler with
    | none => simp [PreparedCommand.report, hhandler, errorOf, PreparedCommand.concluded]
    | some handler => rfl
  · rfl

theorem enterAfter_report (command : PreparedCommand D) (index : Nat) (result : Except Error Unit) :
    command.report (command.enterAfter index result) (errorOf result) =
      commandStarted command.context.commandPath :: command.enteredAfter index result := by
  unfold PreparedCommand.enterAfter PreparedCommand.enteredAfter
  by_cases hlt : index < command.afterHooks.length
  · rw [if_pos hlt, if_pos hlt]
    rfl
  · rw [if_neg hlt, if_neg hlt]
    exact conclude_report command result

theorem enterBefore_report (command : PreparedCommand D) (index : Nat) (error : Option Error) :
    command.report (command.enterBefore index) error = [commandStarted command.context.commandPath] := by
  unfold PreparedCommand.enterBefore
  split <;> rfl

/-- An await adds its records to the report. -/
theorem resume_report {command : PreparedCommand D} {performed : List Performed} {point : Point} {step : Step}
    (outcome : Except Error Unit) (h : command.Traced performed point) (hstep : point.step = some step) :
    command.report (command.resume point outcome) (firstError (performed ++ [⟨step, outcome⟩])) =
      command.report point (firstError performed) ++ command.emitted point outcome := by
  have hlast : firstError [⟨step, outcome⟩] = errorOf outcome := by rcases outcome with error | ⟨⟩ <;> rfl
  rw [firstError_append, hlast]
  cases point with
  | policy =>
    rw [firstError_none (PreparedCommand.planned_ok h (Nat.zero_le _))]
    rcases outcome with error | ⟨⟩
    · exact conclude_report command (.error error)
    · exact enterBefore_report command 0 none
  | before index =>
    obtain ⟨hlt, h⟩ := h
    rw [firstError_none (PreparedCommand.planned_ok h (by omega))]
    rcases outcome with error | ⟨⟩
    · exact conclude_report command (.error error)
    · exact enterBefore_report command (index + 1) none
  | handler =>
    rw [firstError_none (PreparedCommand.planned_ok h (Nat.le_refl _))]
    exact enterAfter_report command 0 outcome
  | after index result =>
    -- the result so far is the first error so far
    obtain ⟨-, -, hresult⟩ := h
    have hkept : (errorOf result).or (errorOf outcome) = errorOf (if result.isOk then outcome else result) := by
      rcases result with error | ⟨⟩ <;> rfl
    rw [← hresult, hkept]
    exact enterAfter_report command (index + 1) (if result.isOk then outcome else result)
  | errorHandler error =>
    obtain ⟨hhandler, hfirst, -⟩ := h
    have hsome : command.errorHandler.isSome = true := Option.isSome_iff_ne_none.mpr hhandler
    rw [hfirst]
    simp [PreparedCommand.report, PreparedCommand.resume, PreparedCommand.emitted, hsome]
  | returned result => cases hstep

theorem advance_report {p next : Progress D} {clock : Instant} {w w' : Execution.World D}
    (h : p.advance clock w = some (next, w')) : ∃ outcome, p.command.await clock w p.point = some (outcome, w') ∧
      next.report = p.report ++ p.command.emitted p.point outcome := by
  obtain ⟨hcommand, step, outcome, hstep, hawait, hpoint, hperformed⟩ := advance_resume h
  refine ⟨outcome, hawait, ?_⟩
  rw [Progress.report, hcommand, hpoint, hperformed]
  exact resume_report outcome p.traced hstep

/-! ## Whole runs -/

/-- Each task has recorded its report, and every record has the path of a registered leaf. -/
structure Reported (framework : Framework D) (workers : Workers D) (log : List (Nat × Record)) : Prop where
  reported : ∀ task, recordsOf task log = ((workers.progress task).map Progress.report).getD []
  paths : ∀ entry ∈ log, ∃ leaf, framework.registry.leafAt entry.2.commandPath = some leaf

theorem put_reported {framework : Framework D} {workers : Workers D} {log : List (Nat × Record)}
    (h : Reported framework workers log) {task : Nat} {p : Progress D} (world : Execution.World D) {records : List Record}
    (hleaf : OfLeaf framework p.command)
    (hreport : p.report = ((workers.progress task).map Progress.report).getD [] ++ records)
    (hpaths : ∀ record ∈ records, record.commandPath = p.command.context.commandPath) :
    Reported framework (workers.put task p world) (log ++ records.map fun record => (task, record)) := by
  refine ⟨fun other => ?_, fun entry hentry => ?_⟩
  · rw [put_progress, recordsOf_append, h.reported other]
    by_cases ho : other = task
    · subst ho
      rw [Function.update_self, recordsOf_self]
      exact hreport.symm
    · rw [Function.update_of_ne ho, recordsOf_other (Ne.symm ho), List.append_nil]
  · rcases List.mem_append.mp hentry with hentry | hentry
    · exact h.paths entry hentry
    · obtain ⟨record, hrecord, rfl⟩ := List.mem_map.mp hentry
      obtain ⟨leaf, hleaf, -⟩ := hleaf
      exact ⟨leaf, by rw [hpaths record hrecord]; exact hleaf⟩

theorem concluded_path (command : PreparedCommand D) (result : Except Error Unit) :
    ∀ record ∈ command.concluded result, record.commandPath = command.context.commandPath := by
  intro record hrecord
  rcases result with error | ⟨⟩
  · rw [List.mem_singleton.mp hrecord]
    rfl
  · rw [List.mem_singleton.mp hrecord]
    rfl

theorem enteredAfter_path (command : PreparedCommand D) (index : Nat) (result : Except Error Unit) :
    ∀ record ∈ command.enteredAfter index result, record.commandPath = command.context.commandPath := by
  intro record hrecord
  unfold PreparedCommand.enteredAfter at hrecord
  split at hrecord
  · cases hrecord
  · exact concluded_path command result record hrecord

theorem emitted_path (command : PreparedCommand D) (point : Point) (outcome : Except Error Unit) :
    ∀ record ∈ command.emitted point outcome, record.commandPath = command.context.commandPath := by
  intro record hrecord
  cases point with
  | policy =>
    rcases outcome with error | ⟨⟩
    · exact concluded_path command (.error error) record hrecord
    · cases hrecord
  | before index =>
    rcases outcome with error | ⟨⟩
    · exact concluded_path command (.error error) record hrecord
    · cases hrecord
  | handler => exact enteredAfter_path command _ _ record hrecord
  | after index result => exact enteredAfter_path command _ _ record hrecord
  | errorHandler error =>
    rw [List.mem_singleton.mp hrecord]
    split <;> rfl
  | returned result => cases hrecord

theorem reported_kept (framework : Framework D) : Kept lifecycle framework (Reported framework) where
  forgets h := ⟨h.reported, h.paths⟩
  starts {workers _ task command} h hleaf hlive hprogress := by
    have hreport : (Progress.start command).report = ((workers.progress task).map Progress.report).getD [] ++
        [commandStarted command.context.commandPath] := by
      rw [hprogress]
      rfl
    refine put_reported h workers.world hleaf hreport fun record hrecord => ?_
    rw [List.mem_singleton.mp hrecord]
    rfl
  resumes {workers _ task clock p next world} h hleaf hprogress hadvance := by
    obtain ⟨outcome, hawait, hreport⟩ := advance_report hadvance
    obtain ⟨hcommand, -⟩ := Progress.advance_inv hadvance
    simp only [lifecycle, hawait]
    refine put_reported h world (hcommand ▸ hleaf) ?_ ?_
    · rw [hprogress]
      exact hreport
    · rw [hcommand]
      exact emitted_path p.command p.point outcome
  completes h _ := ⟨h.reported, h.paths⟩
  spawns h _ := ⟨h.reported, h.paths⟩

/-- In every managed run, and after it, what each command's task has recorded is the report
    of where it is: nothing before its first poll, then that it started, then how its async
    block ended, then what the error handler made of it, if there is one. Every record has
    the path of a registered leaf. -/
theorem lifecycle_records (framework : Framework D) (synchronize : ApplicationId → Except Error Unit)
    (world : Execution.World D) (deliveries : List Delivery) (last later : List TaskMove) :
    let dropped := (managedRun framework synchronize world last deliveries).dropped
    let log := lifecycle.managedLog framework synchronize world last later deliveries
    (∀ task, recordsOf task log = match (dropped.moves later).progress task with
      | none => []
      | some p => p.command.report p.point (firstError p.performed)) ∧
      ∀ task record, (task, record) ∈ log → ∃ leaf, framework.registry.leafAt record.commandPath = some leaf := by
  intro dropped log
  have hstart : Reported framework (Workers.start world) [] :=
    ⟨fun _ => rfl, fun _ h => (by cases h)⟩
  have hreported := managed_invariant (reported_kept framework) synchronize last later deliveries hstart
  refine ⟨fun task => ?_, fun task record hrecord => hreported.paths (task, record) hrecord⟩
  rw [dropped_progress, hreported.reported task]
  cases (managedRun framework synchronize world last deliveries).progress task <;> rfl

end GloamCommands.Dispatch
