/-
  GloamCommands.Dispatch.Joining — what `CommandTask::join` gives (crates/gloam-commands/src/dispatch.rs).

  In an application's own loop (`Dispatch.Handles`) nobody drops a set of tasks: what has
  been spawned is lost only to a panic of its own, or to an `abort` of its own handle.
  - `Progress.left`: the awaits an execution has left bound its polls.
  - `unfinished_finishes`: what is not finished can be brought there, whatever the others do.
  - `join_tells`: what `join` gives, and what has been executed by then.
-/

import GloamCommands.Dispatch.Handles

namespace GloamCommands.Dispatch

open Execution (Performed Step)
open Lib (run run_append)

variable {D : Type}

/-! ## To the end -/

namespace PreparedCommand

/-- The awaits an execution has left, at most. -/
def left (command : PreparedCommand D) : Point → Nat
  | .policy => command.beforeHooks.length + command.afterHooks.length + 3
  | .before index => command.beforeHooks.length - index + command.afterHooks.length + 2
  | .handler => command.afterHooks.length + 2
  | .after index _ => command.afterHooks.length - index + 1
  | .errorHandler _ => 1
  | .returned _ => 0

theorem conclude_left (command : PreparedCommand D) (result : Except Error Unit) : command.left (command.conclude result) ≤ 1 := by
  unfold conclude
  split
  · exact Nat.zero_le _
  · split
    · exact Nat.le_refl _
    · exact Nat.zero_le _

theorem enterBefore_left (command : PreparedCommand D) (index : Nat) :
    command.left (command.enterBefore index) ≤ command.beforeHooks.length - index + command.afterHooks.length + 2 := by
  unfold enterBefore
  split
  · exact Nat.le_refl _
  · simp only [left]
    omega

theorem enterAfter_left (command : PreparedCommand D) (index : Nat) (result : Except Error Unit) :
    command.left (command.enterAfter index result) ≤ command.afterHooks.length - index + 1 := by
  unfold enterAfter
  split
  · exact Nat.le_refl _
  · have hconclude := command.conclude_left result
    omega

theorem resume_left {command : PreparedCommand D} {performed : List Performed} {point : Point} {step : Step}
    (outcome : Except Error Unit) (h : command.Traced performed point) (hstep : point.step = some step) :
    command.left (command.resume point outcome) < command.left point := by
  cases point with
  | policy =>
    rcases outcome with error | ⟨⟩
    · have hlast := command.conclude_left (.error error)
      show command.left (command.conclude (.error error)) < command.beforeHooks.length + command.afterHooks.length + 3
      omega
    · have hnext := command.enterBefore_left 0
      show command.left (command.enterBefore 0) < command.beforeHooks.length + command.afterHooks.length + 3
      omega
  | before index =>
    have hlt := h.1
    rcases outcome with error | ⟨⟩
    · have hlast := command.conclude_left (.error error)
      show command.left (command.conclude (.error error)) < command.beforeHooks.length - index + command.afterHooks.length + 2
      omega
    · have hnext := command.enterBefore_left (index + 1)
      show command.left (command.enterBefore (index + 1)) < command.beforeHooks.length - index + command.afterHooks.length + 2
      omega
  | handler =>
    have hnext := command.enterAfter_left 0 outcome
    show command.left (command.enterAfter 0 outcome) < command.afterHooks.length + 2
    omega
  | after index result =>
    have hlt := h.1
    have hnext := command.enterAfter_left (index + 1) (if result.isOk then outcome else result)
    show command.left (command.enterAfter (index + 1) (if result.isOk then outcome else result)) <
      command.afterHooks.length - index + 1
    omega
  | errorHandler error => exact Nat.zero_lt_one
  | returned result => cases hstep

end PreparedCommand

def Progress.left (p : Progress D) : Nat := p.command.left p.point

/-- An execution that has not returned can go on, and is nearer to its end then. -/
theorem advance_goes (p : Progress D) (clock : Instant) (w : Execution.World D) (h : ∀ result, p.point ≠ .returned result) :
    ∃ next w', p.advance clock w = some (next, w') ∧ next.command = p.command ∧ next.left < p.left := by
  have hstep : ∃ step, p.point.step = some step := by
    cases hpoint : p.point with
    | returned result => exact absurd hpoint (h result)
    | _ => exact ⟨_, rfl⟩
  obtain ⟨step, hstep⟩ := hstep
  obtain ⟨outcome, w', hawait⟩ := PreparedCommand.await_some clock w p.traced hstep
  obtain ⟨next, hadvance, hcommand, hpoint, -⟩ := Progress.advance_eq hstep hawait
  refine ⟨next, w', hadvance, hcommand, ?_⟩
  rw [Progress.left, Progress.left, hcommand, hpoint]
  exact PreparedCommand.resume_left outcome p.traced hstep

/-! ## One task -/

def TaskMove.task : TaskMove → Nat
  | .start task => task
  | .resume task _ => task
  | .autocomplete task _ => task

/-- The runtime goes on with the task. -/
def Act.Of (task : Nat) : Act → Prop
  | .poll move => move.task = task
  | .releaseLeaf other => other = task
  | .releaseGlobal other => other = task
  | .finish other => other = task
  | _ => False

def Application.Over (app : Application D) (task : Nat) (job : Job D) (ending : Ending) : Prop :=
  ∃ spawned, app.spawned[task]? = some spawned ∧ spawned.job = job ∧ spawned.ended = some ending ∧
    spawned.task.handle.ending = none

def Application.Finished (app : Application D) (task : Nat) (job : Job D) (ending : Ending) : Prop :=
  ∃ spawned, app.spawned[task]? = some spawned ∧ spawned.job = job ∧ spawned.task.handle.ending = some ending

/-- From `app` the runtime gets to `app'` by going on with the task, and with no other. -/
def Application.GoesOn (framework : Framework D) (task : Nat) (app app' : Application D) : Prop :=
  ∃ acts : List Act, (∀ act ∈ acts, act.Of task) ∧ run (own framework) app acts = some app'

namespace Application.GoesOn

variable {framework : Framework D} {task : Nat} {app middle app' : Application D}

theorem refl : app.GoesOn framework task app := ⟨[], fun _ hact => (by cases hact), rfl⟩

theorem trans (hfirst : app.GoesOn framework task middle) (hthen : middle.GoesOn framework task app') :
    app.GoesOn framework task app' := by
  obtain ⟨acts, hof, hrun⟩ := hfirst
  obtain ⟨more, hmore, hrunMore⟩ := hthen
  refine ⟨acts ++ more, fun act hact => ?_, run_append hrun hrunMore⟩
  rcases List.mem_append.mp hact with hact | hact
  · exact hof act hact
  · exact hmore act hact

theorem one {act : Act} (hstep : own framework app act = some app') (hof : act.Of task) : app.GoesOn framework task app' := by
  refine ⟨[act], fun other hother => ?_, ?_⟩
  · rw [List.mem_singleton.mp hother]
    exact hof
  · rw [run, hstep]
    rfl

end Application.GoesOn

theorem put_settle {app : Application D} {task : Nat} {spawned : Spawned D} (p : Progress D) (world : Execution.World D)
    (hspawned : app.spawned[task]? = some spawned) (hunfinished : spawned.task.handle.ending = none) :
    let after := app.settle (({ app.workers with endings := [] } : Workers D).put task p world)
    (∀ result, p.point = .returned result → after.Over task spawned.job (.completed result)) ∧
      ((∀ result, p.point ≠ .returned result) → after.workers.live = app.workers.live ∧ after.spawned = app.spawned ∧
        after.workers.progress task = some p) := by
  dsimp only
  refine ⟨fun result hpoint => ?_, fun hpoint => ?_⟩
  · refine ⟨spawned.stop (.completed result), ?_, rfl, rfl, hunfinished⟩
    simp only [Application.settle, Workers.put, hpoint, Workers.finish, List.nil_append, List.foldl_cons, List.foldl_nil]
    rw [List.getElem?_modify_eq, hspawned]
    rfl
  · have hput : ({ app.workers with endings := [] } : Workers D).put task p world =
        { app.workers with progress := Function.update app.workers.progress task (some p), world := world,
                           endings := [] } := by
      unfold Workers.put
      cases hp : p.point with
      | returned result => exact absurd hp (hpoint result)
      | _ => rfl
    rw [hput]
    exact ⟨rfl, rfl, Function.update_self ..⟩

/-- Any clock will do. -/
theorem resume_returns {framework : Framework D} {task : Nat} {spawned : Spawned D}
    (hunfinished : spawned.task.handle.ending = none) (n : Nat) :
    ∀ {app : Application D} {p : Progress D}, app.spawned[task]? = some spawned →
      app.workers.live[task]? = some (some spawned.job) → spawned.job = .command p.command →
      app.workers.progress task = some p → (∀ result, p.point ≠ .returned result) → p.left = n →
      ∃ (app' : Application D) (result : Except Error Unit), app.GoesOn framework task app' ∧
        app'.Over task spawned.job (.completed result) := by
  induction n using Nat.strongRecOn with
  | ind n ih =>
    intro app p hspawned hlive hjob hprogress hpoint hn
    obtain ⟨next, world, hadvance, hcommand, hless⟩ := advance_goes p 0 app.workers.world hpoint
    let after := app.settle (({ app.workers with endings := [] } : Workers D).put task next world)
    have hstep : own framework app (.poll (.resume task 0)) = some after := by
      have hmove : app.workers.moves [.resume task 0] = ({ app.workers with endings := [] } : Workers D).put task next world := by
        show Workers.move { app.workers with endings := [] } (.resume task 0) = _
        simp only [Workers.move, hlive, hjob, hprogress, hadvance]
      simp only [own, hmove, after]
    have hfirst : app.GoesOn framework task after := .one hstep rfl
    have hput := @put_settle D app task spawned next world hspawned hunfinished
    by_cases hreturned : ∃ result, next.point = .returned result
    · obtain ⟨result, hresult⟩ := hreturned
      exact ⟨after, result, hfirst, hput.1 result hresult⟩
    · have hgoes : ∀ result, next.point ≠ .returned result := fun result hresult => hreturned ⟨result, hresult⟩
      obtain ⟨hsame, hkept, hnow⟩ := hput.2 hgoes
      obtain ⟨app', result, hthen, hover⟩ := ih next.left (by omega) (hkept ▸ hspawned) (hsame ▸ hlive) (hcommand ▸ hjob) hnow
        hgoes rfl
      exact ⟨app', result, hfirst.trans hthen, hover⟩

theorem start_returns {framework : Framework D} {app : Application D} {task : Nat} {spawned : Spawned D}
    {command : PreparedCommand D} (hunfinished : spawned.task.handle.ending = none)
    (hspawned : app.spawned[task]? = some spawned) (hlive : app.workers.live[task]? = some (some spawned.job))
    (hjob : spawned.job = .command command) (hprogress : app.workers.progress task = none) :
    ∃ (app' : Application D) (result : Except Error Unit), app.GoesOn framework task app' ∧
      app'.Over task spawned.job (.completed result) := by
  let after := app.settle (({ app.workers with endings := [] } : Workers D).put task (.start command) app.workers.world)
  have hstep : own framework app (.poll (.start task)) = some after := by
    have hmove : app.workers.moves [.start task] =
        ({ app.workers with endings := [] } : Workers D).put task (.start command) app.workers.world := by
      show Workers.move { app.workers with endings := [] } (.start task) = _
      simp only [Workers.move, hlive, hjob, hprogress]
    simp only [own, hmove, after]
  have hfirst : app.GoesOn framework task after := .one hstep rfl
  have hwaits : ∀ result, (Progress.start command).point ≠ .returned result := fun _ hp => (by cases hp)
  obtain ⟨hsame, hkept, hnow⟩ :=
    (@put_settle D app task spawned (.start command) app.workers.world hspawned hunfinished).2 hwaits
  obtain ⟨app', result, hthen, hover⟩ := @resume_returns D framework task spawned hunfinished (Progress.start command).left
    after (.start command) (hkept ▸ hspawned) (hsame ▸ hlive) hjob hnow hwaits rfl
  exact ⟨app', result, hfirst.trans hthen, hover⟩

theorem autocomplete_returns {framework : Framework D} {app : Application D} {task : Nat} {spawned : Spawned D}
    {prepared : PreparedAutocomplete D} (hunfinished : spawned.task.handle.ending = none)
    (hspawned : app.spawned[task]? = some spawned) (hlive : app.workers.live[task]? = some (some spawned.job))
    (hjob : spawned.job = .autocomplete prepared) :
    ∃ (app' : Application D) (result : Except Error Unit), app.GoesOn framework task app' ∧
      app'.Over task spawned.job (.completed result) := by
  let answer : Nat → String → List ApplicationCommandOptionChoice → Except Error Unit := fun _ _ _ => .ok ()
  let result := (prepared.execute answer app.workers.world).1
  refine ⟨_, result, @Application.GoesOn.one D framework task app _ (.poll (.autocomplete task answer)) rfl rfl,
    spawned.stop (.completed result), ?_, rfl, rfl, hunfinished⟩
  have hmove : app.workers.moves [.autocomplete task answer] =
      ({ app.workers with world := (prepared.execute answer app.workers.world).2, endings := [] } : Workers D).finish task
        result := by
    show Workers.move { app.workers with endings := [] } (.autocomplete task answer) = _
    rw [hjob] at hlive
    simp only [Workers.move, hlive, result]
  simp only [Application.settle, hmove, Workers.finish, List.nil_append, List.foldl_cons, List.foldl_nil]
  rw [List.getElem?_modify_eq, hspawned]
  rfl

theorem running_returns {framework : Framework D} {app : Application D} (h : Owned framework app) {task : Nat}
    {spawned : Spawned D} (hspawned : app.spawned[task]? = some spawned) (hended : spawned.ended = none) :
    ∃ (app' : Application D) (result : Except Error Unit), app.GoesOn framework task app' ∧
      app'.Over task spawned.job (.completed result) := by
  have hf := h.follows task spawned hspawned
  have hunfinished : spawned.task.handle.ending = none := by
    by_contra hfinished
    obtain ⟨ending, hending⟩ := Option.ne_none_iff_exists'.mp hfinished
    rw [(hf.finished ending hending).1] at hended
    cases hended
  have hlive : app.workers.live[task]? = some (some spawned.job) := by
    rw [h.live, List.getElem?_map, hspawned, Option.map_some]
    simp [Spawned.slot, hended]
  cases hjob : spawned.job with
  | autocomplete prepared => exact hjob ▸ autocomplete_returns hunfinished hspawned hlive hjob
  | command command =>
    rw [← hjob]
    cases hprogress : app.workers.progress task with
    | none => exact start_returns hunfinished hspawned hlive hjob hprogress
    | some p =>
      have hwaits : ∀ result, p.point ≠ .returned result := by
        intro result hpoint
        rw [hf.returned p result hprogress hpoint] at hended
        cases hended
      exact resume_returns hunfinished p.left hspawned hlive (hf.command p hprogress) hprogress hwaits rfl

theorem drops_leaf (framework : Framework D) {app : Application D} {task : Nat} {handle : CommandTask} {job : Job D}
    {ending : Ending} {leaf global : Bool} (h : app.spawned[task]? = some ⟨handle, job, some ending, leaf, global⟩) :
    ∃ app' : Application D, app.GoesOn framework task app' ∧
      app'.spawned[task]? = some ⟨handle, job, some ending, false, global⟩ := by
  cases leaf with
  | false => exact ⟨app, .refl, h⟩
  | true =>
    have hstep : own framework app (.releaseLeaf task) =
        some ⟨dropLeaf job app.permits, app.workers, app.spawned.set task ⟨handle, job, some ending, false, global⟩⟩ := by
      simp only [own, h]
    exact ⟨_, .one hstep rfl, List.getElem?_set_self (List.getElem?_eq_some_iff.mp h).1⟩

theorem drops_global (framework : Framework D) {app : Application D} {task : Nat} {handle : CommandTask} {job : Job D}
    {ending : Ending} {leaf global : Bool} (h : app.spawned[task]? = some ⟨handle, job, some ending, leaf, global⟩) :
    ∃ app' : Application D, app.GoesOn framework task app' ∧
      app'.spawned[task]? = some ⟨handle, job, some ending, leaf, false⟩ := by
  cases global with
  | false => exact ⟨app, .refl, h⟩
  | true =>
    have hstep : own framework app (.releaseGlobal task) =
        some ⟨dropGlobal app.permits, app.workers, app.spawned.set task ⟨handle, job, some ending, leaf, false⟩⟩ := by
      simp only [own, h]
    exact ⟨_, .one hstep rfl, List.getElem?_set_self (List.getElem?_eq_some_iff.mp h).1⟩

/-- What is over drops its permits, and its handle is finished. -/
theorem over_finishes (framework : Framework D) {app : Application D} {task : Nat} {job : Job D} {ending : Ending}
    (h : app.Over task job ending) : ∃ app' : Application D, app.GoesOn framework task app' ∧
      app'.Finished task job ending := by
  obtain ⟨⟨handle, job, ended, leaf, global⟩, hspawned, rfl, rfl, -⟩ := h
  obtain ⟨noLeaf, hfirst, hleaf⟩ := drops_leaf framework hspawned
  obtain ⟨noPermits, hsecond, hglobal⟩ := drops_global framework hleaf
  have hstep : own framework noPermits (.finish task) = some { noPermits with
      spawned := noPermits.spawned.set task ⟨handle.finish ending, job, some ending, false, false⟩ } := by
    simp only [own, hglobal]
  exact ⟨_, (hfirst.trans hsecond).trans (.one hstep rfl), _,
    List.getElem?_set_self (List.getElem?_eq_some_iff.mp hglobal).1, rfl, rfl⟩

/-- A handle that is not finished can be finished, whatever the other tasks do: its task is
    polled until it returns, or is over already. -/
theorem unfinished_finishes {framework : Framework D} {app : Application D} (h : Owned framework app) {task : Nat}
    {spawned : Spawned D} (hspawned : app.spawned[task]? = some spawned) (hunfinished : spawned.task.handle.ending = none) :
    ∃ (app' : Application D) (ending : Ending), app.GoesOn framework task app' ∧ app'.Finished task spawned.job ending ∧
      (spawned.ended = none → ∃ result, ending = .completed result) ∧ ∀ other, spawned.ended = some other → ending = other := by
  cases hended : spawned.ended with
  | some ending =>
    obtain ⟨app', hgoes, hfinished⟩ := over_finishes framework ⟨spawned, hspawned, rfl, hended, hunfinished⟩
    exact ⟨app', ending, hgoes, hfinished, fun hnone => (by cases hnone), fun other hother => Option.some.inj hother⟩
  | none =>
    obtain ⟨returned, result, hreturns, hover⟩ := running_returns h hspawned hended
    obtain ⟨app', hgoes, hfinished⟩ := over_finishes framework hover
    exact ⟨app', .completed result, hreturns.trans hgoes, hfinished, fun _ => ⟨result, rfl⟩, fun _ hsome => (by cases hsome)⟩

/-! ## Joining -/

/-- A handle has its command's name. What an execution returns is what `join` gives, once the
    handle is finished; `join` gives nothing else, unless the task was lost to a panic or to
    `abort`. An execution whose handler has begun is lost, or its handle is not finished, or
    it has run every hook and the error handler it owes. A handle that is not finished can be,
    and if its execution is not over, it is polled until it returns. -/
theorem join_tells (framework : Framework D) (world : Execution.World D) (acts : List Act) (app : Application D)
    (h : run (own framework) (Application.start framework world) acts = some app) (task : Nat) (spawned : Spawned D)
    (hspawned : app.spawned[task]? = some spawned) :
    spawned.task.commandName = spawned.job.commandName ∧
    (∀ p, app.workers.progress task = some p → spawned.job = .command p.command ∧
      (∀ result, p.point = .returned result → spawned.ended = some (.completed result) ∧
        (spawned.task.isFinished = true → spawned.task.join = some result)) ∧
      (spawned.task.handle.aborting = false → spawned.task.handle.ending ≠ some .panicked → p.Begun →
        spawned.task.isFinished = false ∨ p.Whole)) ∧
    (∀ result, spawned.task.join = some result →
      (∃ p, app.workers.progress task = some p ∧ p.point = .returned result) ∨
      (∃ prepared, spawned.job = .autocomplete prepared ∧ spawned.task.handle.ending = some (.completed result)) ∨
      (result = .error (.commandTask .panic) ∧ spawned.task.handle.ending = some .panicked) ∨
      (result = .error (.commandTask .cancelled) ∧ spawned.task.handle.aborting = true)) ∧
    (spawned.task.join = none → ∃ (more : List Act) (app' : Application D) (ending : Ending), (∀ act ∈ more, act.Of task) ∧
      run (own framework) app more = some app' ∧ app'.Finished task spawned.job ending ∧
      (spawned.ended = none → ∃ result, ending = .completed result) ∧ ∀ other, spawned.ended = some other → ending = other) := by
  have hi := owned_run h
  have hf := hi.follows task spawned hspawned
  refine ⟨hf.name, fun p hp => ⟨hf.command p hp, fun result hpoint => ?_, fun hkept hcalm hbegun => ?_⟩,
    fun result hjoin => ?_, fun hjoin => ?_⟩
  · have hended := hf.returned p result hp hpoint
    refine ⟨hended, fun hfinished => ?_⟩
    obtain ⟨ending, hending⟩ := Option.isSome_iff_exists.mp hfinished
    have hsame := (hf.finished ending hending).1
    rw [hended, Option.some.injEq] at hsame
    rw [CommandTask.join, hending, ← hsame]
    rfl
  · cases hending : spawned.task.handle.ending with
    | none => exact .inl (by rw [CommandTask.isFinished, hending]; rfl)
    | some ending =>
      right
      have hended := (hf.finished ending hending).1
      cases ending with
      | completed result =>
        obtain ⟨q, hq, hpoint⟩ := hf.completed p.command result (hf.command p hp) hended
        rw [hp] at hq
        cases hq
        exact (Progress.whole_iff hbegun).mpr ⟨result, hpoint⟩
      | panicked => exact absurd hending hcalm
      | aborted =>
        rw [hf.aborted hended] at hkept
        cases hkept
  · obtain ⟨ending, hending, hresult⟩ := Option.map_eq_some_iff.mp hjoin
    have hended := (hf.finished ending hending).1
    cases ending with
    | completed own =>
      obtain rfl : own = result := hresult
      cases hjob : spawned.job with
      | command command => exact .inl (hf.completed command own hjob hended)
      | autocomplete prepared => exact .inr (.inl ⟨prepared, rfl, hending⟩)
    | panicked => exact .inr (.inr (.inl ⟨hresult.symm, hending⟩))
    | aborted => exact .inr (.inr (.inr ⟨hresult.symm, hf.aborted hended⟩))
  · obtain ⟨app', ending, ⟨more, hof, hmore⟩, hfinished⟩ := unfinished_finishes hi hspawned (Option.map_eq_none_iff.mp hjoin)
    exact ⟨more, app', ending, hof, hmore, hfinished⟩

/-- `ping` waits for its policy; nobody has polled it further. -/
theorem join_tells_ping :
    let ping : SlashCommand Unit := .leaf ⟨"ping", "Check bot responsiveness", []⟩ { handler := fun _ data => (.ok (), data) }
    let interaction : Interaction :=
      ⟨1, 2, .applicationCommand, "token", none, none, none, none, .ok (some ⟨"ping", .chatInput, []⟩)⟩
    ∃ (framework : Framework Unit) (app : Application Unit) (spawned : Spawned Unit),
      framework.registry.get "ping" = some ping ∧
      run (own framework) (Application.start framework ⟨(), fun _ _ => none, []⟩)
        [.dispatch (interactionEvent interaction) (some 0), .poll (.start 0)] = some app ∧
      app.spawned[0]? = some spawned ∧ spawned.task.join = none ∧
      ∃ (more : List Act) (app' : Application Unit) (result : Except Error Unit), (∀ act ∈ more, act.Of 0) ∧
        run (own framework) app more = some app' ∧ app'.Finished 0 spawned.job (.completed result) := by
  intro ping interaction
  obtain ⟨framework, hget⟩ := exists_framework ping rfl
  let prepared : PreparedCommand Unit :=
    ⟨"ping", fun _ data => (.ok (), data), {}, ⟨interaction, ⟨"ping", .chatInput, []⟩, ["ping"], [], some 0⟩,
      framework.beforeHooks, framework.afterHooks, framework.errorHandler⟩
  have hj : jobOf (prepareDispatch framework (interactionEvent interaction) (some 0)) = .ok (.command prepared) := by
    rw [@prepareDispatch_registered Unit framework interaction (some 0) _ ping (.inl rfl) rfl rfl hget]
    rfl
  obtain ⟨permits, hfirst⟩ := dispatch_first (⟨(), fun _ _ => none, []⟩ : Execution.World Unit) hj
  have hrun : ∃ app, run (own framework) (Application.start framework ⟨(), fun _ _ => none, []⟩)
      [.dispatch (interactionEvent interaction) (some 0), .poll (.start 0)] = some app ∧
        app.spawned[0]? = some ⟨⟨"ping", ⟨false, none⟩⟩, .command prepared, none, false, true⟩ :=
    ⟨_, by rw [run, hfirst]; rfl, rfl⟩
  obtain ⟨app, happ, hspawned⟩ := hrun
  obtain ⟨more, app', ending, hof, hmore, hfinished, hreturns, -⟩ := (join_tells framework _ _ app happ 0 _ hspawned).2.2.2 rfl
  obtain ⟨result, rfl⟩ := hreturns rfl
  exact ⟨framework, app, _, hget, happ, hspawned, rfl, more, app', result, hof, hmore, hfinished⟩

end GloamCommands.Dispatch
