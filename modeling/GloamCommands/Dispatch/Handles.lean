/-
  GloamCommands.Dispatch.Handles — an application that owns its Gateway loop (`dispatch`,
  `dispatch_shard`, and `CommandTask` in crates/gloam-commands/src/dispatch.rs).

  Each event it dispatches may give it a `CommandTask`. In between, the tasks are polled
  (`TaskMove`), a handler may panic, and the application may call `abort` on any handle; the
  runtime then stops the task at one of its awaits, if it has not ended before. However an
  execution ends, its future is dropped, with one permit after the other, and then the
  handle is finished: each is a step of its own. One caller dispatches, so that between its
  two tries slots can only come back, and a dispatch is one step. A handle that is dropped
  detaches its task, so nothing is said of that.
  - `own_owned`: what every step keeps of the permits and of the handles.
  - `at_capacity_exact`: `AtCapacity` exactly when the executions that have their permits
    fill a limit.
-/

import GloamCommands.Dispatch.Balance
import GloamCommands.Dispatch.Managed

namespace GloamCommands.Dispatch

open Lib (run run_append run_invariant Conserved)

variable {D : Type}

/-! ## Handles -/

structure JoinHandle where
  /-- `abort` has been called. -/
  aborting : Bool
  /-- `none` until the task has finished. -/
  ending : Option Ending

structure CommandTask where
  commandName : String
  handle : JoinHandle

namespace CommandTask

def isFinished (task : CommandTask) : Bool := task.handle.ending.isSome

def abort (task : CommandTask) : CommandTask := { task with handle := { task.handle with aborting := true } }

def finish (task : CommandTask) (ending : Ending) : CommandTask :=
  { task with handle := { task.handle with ending := some ending } }

def output : Ending → Except JoinError (Except Error Unit)
  | .completed result => .ok result
  | .panicked => .error .panic
  | .aborted => .error .cancelled

/-- `self.handle.await.map_err(Error::CommandTask)?`; `none` while it waits. -/
def join (task : CommandTask) : Option (Except Error Unit) :=
  task.handle.ending.map fun ending =>
    match output ending with
    | .error cause => .error (.commandTask cause)
    | .ok result => result

end CommandTask

/-- A handle, with what its task executes. -/
structure Spawned (D : Type) where
  task : CommandTask
  job : Job D
  /-- The execution has ended, and the future is dropped. -/
  ended : Option Ending
  /-- The permits in the future. -/
  leaf : Bool
  global : Bool

namespace Spawned

def stop (spawned : Spawned D) (ending : Ending) : Spawned D := { spawned with ended := some ending }

def slot (spawned : Spawned D) : Option (Job D) := if spawned.ended.isSome then none else some spawned.job

def on (path : List String) (spawned : Spawned D) : Bool := spawned.leaf && spawned.job.leafSlot == some path

end Spawned

/-! ## The application -/

structure Application (D : Type) where
  permits : Permits
  workers : Workers D
  /-- In spawn order. -/
  spawned : List (Spawned D)

def Application.start (framework : Framework D) (world : Execution.World D) : Application D :=
  ⟨(World.start framework false fun _ => false).permits, Workers.start world, []⟩

/-- A task is over before it has returned. -/
def Workers.stop (workers : Workers D) (task : Nat) (ending : Ending) : Workers D :=
  { workers with live := workers.live.set task none, endings := [(task, ending)] }

def Application.settle (app : Application D) (workers : Workers D) : Application D where
  permits := app.permits
  workers := workers
  spawned := workers.endings.foldl (fun spawned done => spawned.modify done.1 (·.stop done.2)) app.spawned

inductive Act where
  /-- `dispatch`, or `dispatch_shard`. -/
  | dispatch (event : GatewayEvent) (shardId : Option ShardId)
  | poll (move : TaskMove)
  | panic (task : Nat)
  /-- `CommandTask::abort`. -/
  | abort (task : Nat)
  /-- The runtime stops a task that is to be aborted. -/
  | cancel (task : Nat)
  /-- What has ended drops `_command_permit`, or `_permit`; then the handle can be joined. -/
  | releaseLeaf (task : Nat)
  | releaseGlobal (task : Nat)
  | finish (task : Nat)

def own (framework : Framework D) (app : Application D) : Act → Option (Application D)
  | .dispatch event shardId =>
    match dispatch framework event shardId true app.permits, jobOf (prepareDispatch framework event shardId) with
    | (.ok (.spawned name), permits), .ok job => some {
        permits := permits
        workers := { app.workers with live := app.workers.live ++ [some job] }
        spawned := app.spawned ++ [⟨⟨name, ⟨false, none⟩⟩, job, none, job.leafSlot.isSome, true⟩] }
    | (_, permits), _ => some { app with permits := permits }
  | .poll move => some (app.settle (app.workers.moves [move]))
  | .panic task =>
    match app.workers.live[task]? with
    | some (some _) => some (app.settle (app.workers.stop task .panicked))
    | _ => none
  | .abort task =>
    match app.spawned[task]? with
    | some spawned => some { app with spawned := app.spawned.set task { spawned with task := spawned.task.abort } }
    | none => none
  | .cancel task =>
    match app.workers.live[task]?, app.spawned[task]? with
    | some (some _), some spawned =>
      if spawned.task.handle.aborting then some (app.settle (app.workers.stop task .aborted)) else none
    | _, _ => none
  | .releaseLeaf task =>
    match app.spawned[task]? with
    | some ⟨handle, job, some ending, true, global⟩ => some { app with
        permits := dropLeaf job app.permits
        spawned := app.spawned.set task ⟨handle, job, some ending, false, global⟩ }
    | _ => none
  | .releaseGlobal task =>
    match app.spawned[task]? with
    | some ⟨handle, job, some ending, leaf, true⟩ => some { app with
        permits := dropGlobal app.permits
        spawned := app.spawned.set task ⟨handle, job, some ending, leaf, false⟩ }
    | _ => none
  | .finish task =>
    match app.spawned[task]? with
    | some ⟨handle, job, some ending, false, false⟩ =>
      some { app with spawned := app.spawned.set task ⟨handle.finish ending, job, some ending, false, false⟩ }
    | _ => none

/-! ## What a handle knows -/

/-- A handle against its task's execution. -/
structure Follows (framework : Framework D) (spawned : Spawned D) (progress : Option (Progress D)) : Prop where
  dispatched : Dispatched framework spawned.job
  name : spawned.task.commandName = spawned.job.commandName
  running : spawned.ended = none → spawned.leaf = spawned.job.leafSlot.isSome ∧ spawned.global = true
  held : spawned.leaf = true → spawned.job.leafSlot.isSome = true
  finished : ∀ ending, spawned.task.handle.ending = some ending →
    spawned.ended = some ending ∧ spawned.leaf = false ∧ spawned.global = false
  aborted : spawned.ended = some .aborted → spawned.task.handle.aborting = true
  command : ∀ p, progress = some p → spawned.job = .command p.command
  completed : ∀ command result, spawned.job = .command command → spawned.ended = some (.completed result) →
    ∃ p, progress = some p ∧ p.point = .returned result
  returned : ∀ p result, progress = some p → p.point = .returned result → spawned.ended = some (.completed result)

/-- What is over keeps its permits at first. -/
theorem Follows.stops {framework : Framework D} {spawned : Spawned D} {progress progress' : Option (Progress D)}
    {ending : Ending} (h : Follows framework spawned progress) (hended : spawned.ended = none)
    (haborted : some ending = some .aborted → spawned.task.handle.aborting = true)
    (hcommand : ∀ p, progress' = some p → spawned.job = .command p.command)
    (hcompleted : ∀ command result, spawned.job = .command command → some ending = some (.completed result) →
      ∃ p, progress' = some p ∧ p.point = .returned result)
    (hreturned : ∀ p result, progress' = some p → p.point = .returned result → some ending = some (.completed result)) :
    Follows framework (spawned.stop ending) progress' := by
  refine ⟨h.dispatched, h.name, fun he => (by cases he), h.held, fun other he => ?_, haborted, hcommand, hcompleted, hreturned⟩
  obtain ⟨hnone, -⟩ := h.finished other he
  rw [hended] at hnone
  cases hnone

structure Owned (framework : Framework D) (app : Application D) : Prop where
  global : Conserved framework.maxConcurrentCommands app.permits.global.available Spawned.global app.spawned
  leaf : ∀ path, Conserved ((leafLimit framework path).getD 0) (app.permits.leaf path).available (Spawned.on path) app.spawned
  isOpen : app.permits.Open
  live : app.workers.live = app.spawned.map Spawned.slot
  unpolled : ∀ task, app.spawned.length ≤ task → app.workers.progress task = none
  follows : ∀ task spawned, app.spawned[task]? = some spawned → Follows framework spawned (app.workers.progress task)

theorem owned_start (framework : Framework D) (world : Execution.World D) :
    Owned framework (Application.start framework world) :=
  ⟨rfl, fun _ => rfl, ⟨rfl, fun _ => rfl⟩, rfl, fun _ _ => rfl, fun _ _ h => (by cases h)⟩

theorem owned_live {framework : Framework D} {app : Application D} (h : Owned framework app) {task : Nat} {job : Job D}
    (hlive : app.workers.live[task]? = some (some job)) :
    ∃ spawned, app.spawned[task]? = some spawned ∧ spawned.job = job ∧ spawned.ended = none := by
  rw [h.live, List.getElem?_map] at hlive
  obtain ⟨spawned, hspawned, hslot⟩ := Option.map_eq_some_iff.mp hlive
  unfold Spawned.slot at hslot
  split at hslot
  · cases hslot
  · rename_i hended
    exact ⟨spawned, hspawned, Option.some.inj hslot, by simpa using hended⟩

/-- One handle and its task change, and perhaps the permits. -/
theorem owned_set {framework : Framework D} {app : Application D} (h : Owned framework app) {permits : Permits}
    {workers : Workers D} {task : Nat} {spawned next : Spawned D} (hspawned : app.spawned[task]? = some spawned)
    (hglobal : Conserved framework.maxConcurrentCommands permits.global.available Spawned.global (app.spawned.set task next))
    (hleaf : ∀ path, Conserved ((leafLimit framework path).getD 0) (permits.leaf path).available (Spawned.on path)
      (app.spawned.set task next))
    (hopen : permits.Open) (hlive : workers.live = app.workers.live.set task next.slot)
    (hothers : ∀ other, other ≠ task → workers.progress other = app.workers.progress other)
    (hfollows : Follows framework next (workers.progress task)) :
    Owned framework ⟨permits, workers, app.spawned.set task next⟩ := by
  have htask : task < app.spawned.length := (List.getElem?_eq_some_iff.mp hspawned).1
  refine ⟨hglobal, hleaf, hopen, ?_, fun other hother => ?_, fun other s hs => ?_⟩
  · show workers.live = (app.spawned.set task next).map Spawned.slot
    rw [List.map_set, ← h.live]
    exact hlive
  · rw [List.length_set] at hother
    show workers.progress other = none
    rw [hothers other (by omega)]
    exact h.unpolled other hother
  · change (app.spawned.set task next)[other]? = some s at hs
    show Follows framework s (workers.progress other)
    by_cases ho : other = task
    · subst ho
      rw [List.getElem?_set_self htask] at hs
      cases hs
      exact hfollows
    · rw [List.getElem?_set_ne (Ne.symm ho)] at hs
      rw [hothers other ho]
      exact h.follows other s hs

theorem live_set {framework : Framework D} {app : Application D} (h : Owned framework app) {task : Nat}
    {spawned next : Spawned D} (hspawned : app.spawned[task]? = some spawned) (hslot : next.slot = spawned.slot) :
    app.workers.live = app.workers.live.set task next.slot := by
  have hget : app.workers.live[task]? = some next.slot := by
    rw [h.live, List.getElem?_map, hspawned, hslot]
    rfl
  obtain ⟨hlt, hget⟩ := List.getElem?_eq_some_iff.mp hget
  rw [← hget, List.set_getElem_self]

theorem owned_quiet {framework : Framework D} {app : Application D} (h : Owned framework app) {workers : Workers D}
    (hlive : workers.live = app.workers.live) (hendings : workers.endings = [])
    (hunpolled : ∀ task, app.spawned.length ≤ task → workers.progress task = none)
    (hfollows : ∀ task spawned, app.spawned[task]? = some spawned → Follows framework spawned (workers.progress task)) :
    Owned framework (app.settle workers) := by
  have hsettle : app.settle workers = ⟨app.permits, workers, app.spawned⟩ := by
    simp only [Application.settle, hendings, List.foldl_nil]
  rw [hsettle]
  exact ⟨h.global, h.leaf, h.isOpen, hlive.trans h.live, hunpolled, hfollows⟩

theorem modify_set {α : Type} {f : α → α} {members : List α} {i : Nat} {a : α} (h : members[i]? = some a) :
    members.modify i f = members.set i (f a) := by
  apply List.ext_getElem?
  intro j
  rw [List.getElem?_modify]
  by_cases hj : i = j
  · subst hj
    rw [h, List.getElem?_set_self (List.getElem?_eq_some_iff.mp h).1]
    simp
  · rw [List.getElem?_set_ne hj]
    simp [hj]

/-- One execution ends; its permits stay in the future. -/
theorem owned_ends {framework : Framework D} {app : Application D} (h : Owned framework app) {workers : Workers D}
    {task : Nat} {spawned : Spawned D} {ending : Ending} (hspawned : app.spawned[task]? = some spawned)
    (hlive : workers.live = app.workers.live.set task none) (hendings : workers.endings = [(task, ending)])
    (hothers : ∀ other, other ≠ task → workers.progress other = app.workers.progress other)
    (hfollows : Follows framework (spawned.stop ending) (workers.progress task)) :
    Owned framework (app.settle workers) := by
  have hsettle : app.settle workers = ⟨app.permits, workers, app.spawned.set task (spawned.stop ending)⟩ := by
    simp only [Application.settle, hendings, List.foldl_cons, List.foldl_nil]
    rw [modify_set hspawned]
  rw [hsettle]
  exact owned_set h hspawned (h.global.keep hspawned rfl) (fun path => (h.leaf path).keep hspawned rfl) h.isOpen hlive hothers
    hfollows

/-! ## Steps -/

theorem put_owned {framework : Framework D} {app : Application D} (h : Owned framework app) {task : Nat} {p : Progress D}
    (world : Execution.World D) (hlive : app.workers.live[task]? = some (some (.command p.command))) :
    Owned framework (app.settle (({ app.workers with endings := [] } : Workers D).put task p world)) := by
  obtain ⟨spawned, hspawned, hjob, hended⟩ := owned_live h hlive
  have hf := h.follows task spawned hspawned
  have hothers : ∀ other, other ≠ task →
      Function.update app.workers.progress task (some p) other = app.workers.progress other :=
    fun other ho => Function.update_of_ne ho _ _
  cases hpoint : p.point with
  | returned result =>
    have hput : ({ app.workers with endings := [] } : Workers D).put task p world =
        { app.workers with live := app.workers.live.set task none,
                           progress := Function.update app.workers.progress task (some p), world := world,
                           endings := [(task, .completed result)] } := by
      simp only [Workers.put, hpoint, Workers.finish, List.nil_append]
    rw [hput]
    refine owned_ends h hspawned rfl rfl hothers ?_
    show Follows framework _ (Function.update app.workers.progress task (some p) task)
    rw [Function.update_self]
    refine hf.stops hended (fun he => (by cases he)) (fun q hq => ?_) (fun command r _ hr => ?_) fun q r hq hr => ?_
    · cases hq
      exact hjob
    · cases hr
      exact ⟨p, rfl, hpoint⟩
    · cases hq
      rw [hpoint] at hr
      cases hr
      rfl
  | _ =>
    have hput : ({ app.workers with endings := [] } : Workers D).put task p world =
        { app.workers with progress := Function.update app.workers.progress task (some p), world := world,
                           endings := [] } := by
      simp only [Workers.put, hpoint]
    rw [hput]
    refine owned_quiet h rfl rfl (fun other hother => ?_) fun other s hs => ?_
    · have hne : other ≠ task := by
        intro heq
        subst heq
        rw [List.getElem?_eq_none hother] at hspawned
        cases hspawned
      exact (hothers other hne).trans (h.unpolled other hother)
    · show Follows framework s (Function.update app.workers.progress task (some p) other)
      by_cases ho : other = task
      · subst ho
        rw [hspawned] at hs
        cases hs
        rw [Function.update_self]
        refine ⟨hf.dispatched, hf.name, hf.running, hf.held, hf.finished, hf.aborted, fun q hq => ?_,
          fun command r _ hr => ?_, fun q r hq hr => ?_⟩
        · cases hq
          exact hjob
        · rw [hended] at hr
          cases hr
        · cases hq
          rw [hpoint] at hr
          cases hr
      · rw [hothers other ho]
        exact h.follows other s hs

theorem poll_owned {framework : Framework D} {app : Application D} (h : Owned framework app) (move : TaskMove) :
    Owned framework (app.settle (app.workers.moves [move])) := by
  show Owned framework (app.settle (Workers.move { app.workers with endings := [] } move))
  have hmoved := move_moved { app.workers with endings := [] } move
  revert hmoved
  generalize Workers.move { app.workers with endings := [] } move = after
  intro hmoved
  cases hmoved with
  | stays => exact owned_quiet h rfl rfl h.unpolled h.follows
  | starts hlive => exact put_owned h app.workers.world hlive
  | @resumes task clock command p next world hlive hprogress hadvance =>
    obtain ⟨hcommand, -⟩ := Progress.advance_inv hadvance
    obtain ⟨spawned, hspawned, hjob, -⟩ := owned_live h hlive
    have hsame := (h.follows task spawned hspawned).command p hprogress
    rw [hjob, ← hcommand] at hsame
    exact put_owned h world (hsame ▸ hlive)
  | @completes task prepared rest hlive =>
    obtain ⟨spawned, hspawned, hjob, hended⟩ := owned_live h hlive
    have hf := h.follows task spawned hspawned
    refine owned_ends h hspawned rfl rfl (fun _ _ => rfl) ?_
    refine hf.stops hended (fun he => (by cases he)) hf.command (fun command r hcommand _ => ?_) fun q r hq _ => ?_
    · exact absurd (hjob.symm.trans hcommand) (by simp)
    · exact absurd (hjob.symm.trans (hf.command q hq)) (by simp)

theorem stop_owned {framework : Framework D} {app : Application D} (h : Owned framework app) {task : Nat}
    {spawned : Spawned D} {ending : Ending} (hspawned : app.spawned[task]? = some spawned)
    (hended : spawned.ended = none) (hlost : ∀ result, ending ≠ .completed result)
    (haborted : ending = .aborted → spawned.task.handle.aborting = true) :
    Owned framework (app.settle (app.workers.stop task ending)) := by
  have hf := h.follows task spawned hspawned
  refine owned_ends h hspawned rfl rfl (fun _ _ => rfl) ?_
  refine hf.stops hended (fun he => haborted (Option.some.inj he)) hf.command (fun command r _ hr => ?_) fun q r hq hr => ?_
  · exact absurd (Option.some.inj hr) (hlost r)
  · exact absurd ((hf.returned q r hq hr).symm.trans hended) (by simp)

def Job.Fits (job : Job D) (permits : Permits) : Prop :=
  permits.global.available ≠ 0 ∧ ∀ path, job.leafSlot = some path → (permits.leaf path).available ≠ 0

theorem dispatch_fits {framework : Framework D} {event : GatewayEvent} {shardId : Option ShardId} {permits : Permits}
    {job : Job D} (ho : permits.Open) (hj : jobOf (prepareDispatch framework event shardId) = .ok job) :
    (job.Fits permits ∧ ∃ withLeaf withBoth, takeLeaf job permits = .ok withLeaf ∧ takeGlobal withLeaf = .ok withBoth ∧
      dispatch framework event shardId true permits = (.ok (.spawned job.commandName), withBoth)) ∨
    (¬ job.Fits permits ∧ dispatch framework event shardId true permits = (.ok (.atCapacity job.commandName), permits)) := by
  rcases tryExecute_cases job permits with ⟨error, hleaf, ht⟩ | ⟨withLeaf, error, hleaf, hglobal, ht⟩ |
    ⟨withLeaf, withBoth, hleaf, hglobal, ht⟩
  · refine .inr ⟨fun hfits => ?_, ?_⟩
    · obtain ⟨next, hnext, -⟩ := takeLeaf_free ho hfits.2
      rw [hleaf] at hnext
      cases hnext
    · rw [(takeLeaf_open ho).2 error hleaf] at ht
      simp only [dispatch, hj, if_true, ht, refusal]
  · refine .inr ⟨fun hfits => ?_, ?_⟩
    · obtain ⟨next, hnext, hsame⟩ := takeLeaf_free ho hfits.2
      rw [hleaf] at hnext
      cases hnext
      have hfree : permits.global.tryAcquire = .ok permits.global.acquire := tryAcquire_free ho.1 hfits.1
      rw [takeGlobal, hsame, hfree] at hglobal
      cases hglobal
    · rw [(takeGlobal_open ((takeLeaf_open ho).1 withLeaf hleaf)).2 error hglobal] at ht
      simp only [dispatch, hj, if_true, ht, refusal]
  · have hdispatch : dispatch framework event shardId true permits = (.ok (.spawned job.commandName), withBoth) := by
      simp only [dispatch, hj, if_true, ht]
    refine .inl ⟨?_, withLeaf, withBoth, hleaf, hglobal, hdispatch⟩
    obtain ⟨hfree, -⟩ := takeGlobal_ok hglobal
    rcases takeLeaf_ok hleaf with ⟨hs, rfl⟩ | ⟨path, hs, hslot, rfl⟩
    · exact ⟨hfree, fun path hpath => (by rw [hs] at hpath; cases hpath)⟩
    · refine ⟨hfree, fun other hother => ?_⟩
      rw [hs] at hother
      cases hother
      exact hslot

theorem dispatch_owned {framework : Framework D} {app app' : Application D} (h : Owned framework app)
    {event : GatewayEvent} {shardId : Option ShardId} (hstep : own framework app (.dispatch event shardId) = some app') :
    Owned framework app' := by
  cases hj : jobOf (prepareDispatch framework event shardId) with
  | error outcome =>
    have hdispatch : dispatch framework event shardId true app.permits = (outcome, app.permits) := by
      simp only [dispatch, hj]
    simp only [own, hj, hdispatch] at hstep
    cases hstep
    exact h
  | ok job =>
    rcases dispatch_fits h.isOpen hj with ⟨-, withLeaf, withBoth, hleaf, hglobal, hdispatch⟩ | ⟨-, hdispatch⟩
    · simp only [own, hj, hdispatch] at hstep
      cases hstep
      have hopen := (takeGlobal_open ((takeLeaf_open h.isOpen).1 withLeaf hleaf)).1 withBoth hglobal
      refine ⟨?_, fun path => ?_, hopen, ?_, fun task htask => ?_, fun task spawned hspawned => ?_⟩
      · obtain ⟨hfree, rfl⟩ := takeGlobal_ok hglobal
        rcases takeLeaf_ok hleaf with ⟨-, rfl⟩ | ⟨slot, -, -, rfl⟩
        · exact h.global.enter hfree rfl
        · exact h.global.enter hfree rfl
      · obtain ⟨-, rfl⟩ := takeGlobal_ok hglobal
        rcases takeLeaf_ok hleaf with ⟨hs, rfl⟩ | ⟨slot, hs, hslot, rfl⟩
        · exact (h.leaf path).concat (by simp [Spawned.on, hs])
        · by_cases hpath : path = slot
          · subst hpath
            show Conserved _ (Function.update app.permits.leaf path _ path).available _ _
            rw [Function.update_self]
            exact (h.leaf path).enter hslot (by simp [Spawned.on, hs])
          · show Conserved _ (Function.update app.permits.leaf slot _ path).available _ _
            rw [Function.update_of_ne hpath]
            exact (h.leaf path).concat (by simp [Spawned.on, hs, Ne.symm hpath])
      · show app.workers.live ++ [some job] = _
        rw [List.map_append, h.live]
        rfl
      · rw [List.length_append, List.length_singleton] at htask
        exact h.unpolled task (by omega)
      · change (app.spawned ++ [_])[task]? = _ at hspawned
        rw [List.getElem?_append] at hspawned
        split at hspawned
        · exact h.follows task spawned hspawned
        · rename_i hlast
          have hmem := List.mem_of_getElem? hspawned
          rw [List.mem_singleton] at hmem
          subst hmem
          have hnone : app.workers.progress task = none := h.unpolled task (by omega)
          show Follows framework _ (app.workers.progress task)
          rw [hnone]
          exact ⟨⟨event, shardId, hj⟩, rfl, fun _ => ⟨rfl, rfl⟩, id, fun _ he => (by cases he), fun he => (by cases he),
            fun _ hp => (by cases hp), fun _ _ _ hr => (by cases hr), fun _ _ hp => (by cases hp)⟩
    · simp only [own, hj, hdispatch] at hstep
      cases hstep
      exact h

theorem releaseLeaf_owned {framework : Framework D} {app app' : Application D} {task : Nat} (h : Owned framework app)
    (hstep : own framework app (.releaseLeaf task) = some app') : Owned framework app' := by
  simp only [own] at hstep
  split at hstep
  · rename_i handle job ending global hspawned
    cases hstep
    have hf := h.follows task _ hspawned
    obtain ⟨path, hs⟩ := Option.isSome_iff_exists.mp (hf.held rfl)
    refine owned_set h hspawned ?_ (fun other => ?_) ?_ (live_set h hspawned rfl) (fun _ _ => rfl) ?_
    · rw [dropLeaf_some hs]
      exact h.global.keep hspawned rfl
    · rw [dropLeaf_some hs]
      by_cases hpath : other = path
      · subst hpath
        show Conserved _ (Function.update app.permits.leaf other _ other).available _ _
        rw [Function.update_self]
        exact (h.leaf other).give hspawned (by simp [Spawned.on, hs]) rfl
      · show Conserved _ (Function.update app.permits.leaf path _ other).available _ _
        rw [Function.update_of_ne hpath]
        exact (h.leaf other).keep hspawned (by simp [Spawned.on, hs, Ne.symm hpath])
    · rw [dropLeaf_some hs]
      exact open_update h.isOpen path rfl
    · refine ⟨hf.dispatched, hf.name, fun hnone => (by cases hnone), fun hleaf => (by cases hleaf), fun other he => ?_,
        hf.aborted, hf.command, hf.completed, hf.returned⟩
      obtain ⟨hended, -, hglobal⟩ := hf.finished other he
      exact ⟨hended, rfl, hglobal⟩
  · cases hstep

theorem releaseGlobal_owned {framework : Framework D} {app app' : Application D} {task : Nat} (h : Owned framework app)
    (hstep : own framework app (.releaseGlobal task) = some app') : Owned framework app' := by
  simp only [own] at hstep
  split at hstep
  · rename_i handle job ending leaf hspawned
    cases hstep
    have hf := h.follows task _ hspawned
    refine owned_set h hspawned (h.global.give hspawned rfl rfl) (fun path => (h.leaf path).keep hspawned rfl) h.isOpen
      (live_set h hspawned rfl) (fun _ _ => rfl) ?_
    refine ⟨hf.dispatched, hf.name, fun hnone => (by cases hnone), hf.held, fun other he => ?_, hf.aborted, hf.command,
      hf.completed, hf.returned⟩
    obtain ⟨hended, hleaf, -⟩ := hf.finished other he
    exact ⟨hended, hleaf, rfl⟩
  · cases hstep

theorem finish_owned {framework : Framework D} {app app' : Application D} {task : Nat} (h : Owned framework app)
    (hstep : own framework app (.finish task) = some app') : Owned framework app' := by
  simp only [own] at hstep
  split at hstep
  · rename_i handle job ending hspawned
    cases hstep
    have hf := h.follows task _ hspawned
    refine owned_set h hspawned (h.global.keep hspawned rfl) (fun path => (h.leaf path).keep hspawned rfl) h.isOpen
      (live_set h hspawned rfl) (fun _ _ => rfl) ?_
    refine ⟨hf.dispatched, hf.name, fun hnone => (by cases hnone), hf.held, fun other he => ?_, hf.aborted, hf.command,
      hf.completed, hf.returned⟩
    cases he
    exact ⟨rfl, rfl, rfl⟩
  · cases hstep

/-- Every step keeps the permits in balance, and every handle with its task. -/
theorem own_owned {framework : Framework D} {app app' : Application D} {act : Act} (h : Owned framework app)
    (hstep : own framework app act = some app') : Owned framework app' := by
  cases act with
  | dispatch event shardId => exact dispatch_owned h hstep
  | poll move =>
    cases hstep
    exact poll_owned h move
  | panic task =>
    simp only [own] at hstep
    split at hstep
    · rename_i job hlive
      cases hstep
      obtain ⟨spawned, hspawned, -, hended⟩ := owned_live h hlive
      exact stop_owned h hspawned hended (fun _ he => (by cases he)) fun he => (by cases he)
    · cases hstep
  | abort task =>
    simp only [own] at hstep
    split at hstep
    · rename_i spawned hspawned
      cases hstep
      have hf := h.follows task spawned hspawned
      exact owned_set h hspawned (h.global.keep hspawned rfl) (fun path => (h.leaf path).keep hspawned rfl) h.isOpen
        (live_set h hspawned rfl) (fun _ _ => rfl) ⟨hf.dispatched, hf.name, hf.running, hf.held, hf.finished, fun _ => rfl,
          hf.command, hf.completed, hf.returned⟩
    · cases hstep
  | cancel task =>
    simp only [own] at hstep
    split at hstep
    · rename_i job spawned hlive hspawned
      split at hstep
      · rename_i haborting
        cases hstep
        obtain ⟨s, hs, -, hended⟩ := owned_live h hlive
        rw [hspawned] at hs
        cases hs
        exact stop_owned h hspawned hended (fun _ he => (by cases he)) fun _ => haborting
      · cases hstep
    · cases hstep
  | releaseLeaf task => exact releaseLeaf_owned h hstep
  | releaseGlobal task => exact releaseGlobal_owned h hstep
  | finish task => exact finish_owned h hstep

theorem owned_run {framework : Framework D} {world : Execution.World D} {acts : List Act} {app : Application D}
    (h : run (own framework) (Application.start framework world) acts = some app) : Owned framework app :=
  run_invariant (fun _ _ _ hi hs => own_owned hi hs) h (owned_start framework world)

/-! ## At capacity -/

/-- Executions that have their permits fill the framework's limit, or the job's leaf's. -/
def Application.Filled (framework : Framework D) (app : Application D) (job : Job D) : Prop :=
  app.spawned.countP Spawned.global = framework.maxConcurrentCommands ∨
    ∃ path limit, job.leafSlot = some path ∧ leafLimit framework path = some limit ∧
      app.spawned.countP (Spawned.on path) = limit

theorem filled_iff {framework : Framework D} {app : Application D} (h : Owned framework app) {event : GatewayEvent}
    {shardId : Option ShardId} {job : Job D} (hj : jobOf (prepareDispatch framework event shardId) = .ok job) :
    app.Filled framework job ↔ ¬ job.Fits app.permits := by
  have hglobal : app.permits.global.available + app.spawned.countP Spawned.global = framework.maxConcurrentCommands := h.global
  have hleaf : ∀ path limit, leafLimit framework path = some limit →
      (app.permits.leaf path).available + app.spawned.countP (Spawned.on path) = limit := by
    intro path limit hlimit
    have hconserved := h.leaf path
    rw [hlimit] at hconserved
    exact hconserved
  constructor
  · intro hfilled hfits
    rcases hfilled with hfull | ⟨path, limit, hslot, hlimit, hfull⟩
    · have hfree := hfits.1
      omega
    · have hfree := hfits.2 path hslot
      have hsum := hleaf path limit hlimit
      omega
  · intro hno
    by_contra hnot
    refine hno ⟨fun hzero => hnot (.inl (by omega)), fun path hslot hzero => ?_⟩
    obtain ⟨limit, hlimit, -⟩ := jobOf_limit hj hslot
    have hsum := hleaf path limit hlimit
    exact hnot (.inr ⟨path, limit, hslot, hlimit, by omega⟩)

def Application.unfinished (app : Application D) (p : Job D → Bool) : Nat :=
  app.spawned.countP fun spawned => !spawned.task.isFinished && p spawned.job

theorem held_unfinished {framework : Framework D} {app : Application D} (h : Owned framework app) {p : Spawned D → Bool}
    {q : Job D → Bool} (hheld : ∀ spawned, p spawned = true → spawned.global = true ∨ spawned.leaf = true)
    (hq : ∀ spawned, p spawned = true → q spawned.job = true) : app.spawned.countP p ≤ app.unfinished q := by
  refine List.countP_mono_left fun spawned hmem hcount => ?_
  obtain ⟨task, htask⟩ := List.getElem?_of_mem hmem
  rw [hq spawned hcount, Bool.and_true]
  cases hending : spawned.task.handle.ending with
  | none => simp [CommandTask.isFinished, hending]
  | some ending =>
    obtain ⟨-, hleaf, hglobal⟩ := (h.follows task spawned htask).finished ending hending
    rcases hheld spawned hcount with hone | hone
    · rw [hglobal] at hone
      cases hone
    · rw [hleaf] at hone
      cases hone

/-- So what fills a limit are tasks that are not finished. -/
theorem filled_unfinished {framework : Framework D} {app : Application D} {job : Job D} (h : Owned framework app)
    (hfilled : app.Filled framework job) : framework.maxConcurrentCommands ≤ app.unfinished (fun _ => true) ∨
      ∃ path limit, job.leafSlot = some path ∧ leafLimit framework path = some limit ∧
        limit ≤ app.unfinished (fun other => other.leafSlot == some path) := by
  rcases hfilled with hfull | ⟨path, limit, hslot, hlimit, hfull⟩
  · refine .inl (hfull ▸ held_unfinished h (fun _ hp => .inl hp) fun _ _ => rfl)
  · refine .inr ⟨path, limit, hslot, hlimit, hfull ▸ held_unfinished h (fun _ hp => ?_) fun _ hp => ?_⟩
    · exact .inr (Bool.and_eq_true_iff.mp hp).1
    · exact (Bool.and_eq_true_iff.mp hp).2

/-- What there is to execute is refused exactly when the executions that still have their
    permits fill the framework's limit, or its leaf's; neither is ever exceeded. An
    execution that is not over has its permits, a task that is finished has none. So where
    the unfinished tasks leave room it is spawned. -/
theorem at_capacity_exact (framework : Framework D) (world : Execution.World D) (acts : List Act) (app : Application D)
    (h : run (own framework) (Application.start framework world) acts = some app) (event : GatewayEvent)
    (shardId : Option ShardId) (job : Job D) (hj : jobOf (prepareDispatch framework event shardId) = .ok job) :
    (app.Filled framework job →
      dispatch framework event shardId true app.permits = (.ok (.atCapacity job.commandName), app.permits)) ∧
    (¬ app.Filled framework job →
      (dispatch framework event shardId true app.permits).1 = .ok (.spawned job.commandName)) ∧
    app.spawned.countP Spawned.global ≤ framework.maxConcurrentCommands ∧
    (∀ path limit, leafLimit framework path = some limit → app.spawned.countP (Spawned.on path) ≤ limit) ∧
    (∀ spawned ∈ app.spawned,
      (spawned.ended = none → spawned.leaf = spawned.job.leafSlot.isSome ∧ spawned.global = true) ∧
      (spawned.task.isFinished = true → spawned.leaf = false ∧ spawned.global = false)) ∧
    (app.unfinished (fun _ => true) < framework.maxConcurrentCommands →
      (∀ path limit, job.leafSlot = some path → leafLimit framework path = some limit →
        app.unfinished (fun other => other.leafSlot == some path) < limit) →
      (dispatch framework event shardId true app.permits).1 = .ok (.spawned job.commandName)) := by
  have hi := owned_run h
  have hspawns : ¬ app.Filled framework job →
      (dispatch framework event shardId true app.permits).1 = .ok (.spawned job.commandName) := by
    intro hnot
    rcases dispatch_fits hi.isOpen hj with ⟨-, withLeaf, withBoth, -, -, hdispatch⟩ | ⟨hno, -⟩
    · rw [hdispatch]
    · exact absurd ((filled_iff hi hj).mpr hno) hnot
  refine ⟨fun hfilled => ?_, hspawns, hi.global.le, fun path limit hlimit => ?_, fun spawned hmem => ?_,
    fun hglobal hleaf => hspawns fun hfilled => ?_⟩
  · rcases dispatch_fits hi.isOpen hj with ⟨hyes, -⟩ | ⟨-, hdispatch⟩
    · exact absurd hyes ((filled_iff hi hj).mp hfilled)
    · exact hdispatch
  · have hle := (hi.leaf path).le
    rw [hlimit] at hle
    exact hle
  · obtain ⟨task, htask⟩ := List.getElem?_of_mem hmem
    have hf := hi.follows task spawned htask
    refine ⟨hf.running, fun hfinished => ?_⟩
    obtain ⟨ending, hending⟩ := Option.isSome_iff_exists.mp hfinished
    exact (hf.finished ending hending).2
  · rcases filled_unfinished hi hfilled with hfull | ⟨path, limit, hslot, hlimit, hfull⟩
    · omega
    · have hless := hleaf path limit hslot hlimit
      omega

/-- The first interaction there is something to execute for is spawned. -/
theorem dispatch_first {framework : Framework D} {event : GatewayEvent} {shardId : Option ShardId} {job : Job D}
    (world : Execution.World D) (hj : jobOf (prepareDispatch framework event shardId) = .ok job) :
    ∃ permits, own framework (Application.start framework world) (.dispatch event shardId) = some {
      permits := permits
      workers := { Workers.start world with live := [some job] }
      spawned := [⟨⟨job.commandName, ⟨false, none⟩⟩, job, none, job.leafSlot.isSome, true⟩] } := by
  have hfits : job.Fits (Application.start framework world).permits := by
    refine ⟨framework.limited, fun path hslot => ?_⟩
    obtain ⟨limit, hlimit, hpositive⟩ := jobOf_limit hj hslot
    show (leafLimit framework path).getD 0 ≠ 0
    rw [hlimit]
    exact hpositive
  rcases dispatch_fits (owned_start framework world).isOpen hj with ⟨-, withLeaf, withBoth, -, -, hdispatch⟩ | ⟨hno, -⟩
  · refine ⟨withBoth, ?_⟩
    simp only [own, hj, hdispatch]
    rfl
  · exact absurd hfits hno

/-- One invocation of `slow` at a time. Of the aborted task the future has been dropped, but
    its handle is not finished. -/
theorem at_capacity_exact_slow :
    let slow : SlashCommand Unit :=
      .leaf ⟨"slow", "Exercise concurrency limits", []⟩
        { handler := fun _ data => (.ok (), data), policy := { maxConcurrency := some 1 } }
    let interaction : Interaction :=
      ⟨1, 2, .applicationCommand, "token", none, none, none, none, .ok (some ⟨"slow", .chatInput, []⟩)⟩
    ∃ (framework : Framework Unit) (stopped dropped : Application Unit), framework.registry.get "slow" = some slow ∧
      run (own framework) (Application.start framework ⟨(), fun _ _ => none, []⟩)
        [.dispatch (interactionEvent interaction) none, .abort 0, .cancel 0] = some stopped ∧
      run (own framework) stopped [.releaseLeaf 0, .releaseGlobal 0] = some dropped ∧
      dispatch framework (interactionEvent interaction) none true stopped.permits =
        (.ok (.atCapacity "slow"), stopped.permits) ∧
      dropped.unfinished (fun other => other.leafSlot == some ["slow"]) = 1 ∧
      (dispatch framework (interactionEvent interaction) none true dropped.permits).1 = .ok (.spawned "slow") := by
  intro slow interaction
  obtain ⟨framework, hget⟩ := exists_framework slow rfl
  let prepared : PreparedCommand Unit :=
    ⟨"slow", fun _ data => (.ok (), data), { maxConcurrency := some 1 },
      ⟨interaction, ⟨"slow", .chatInput, []⟩, ["slow"], [], none⟩, framework.beforeHooks, framework.afterHooks,
      framework.errorHandler⟩
  have hj : jobOf (prepareDispatch framework (interactionEvent interaction) none) = .ok (.command prepared) := by
    rw [@prepareDispatch_registered Unit framework interaction none _ slow (.inl rfl) rfl rfl hget]
    rfl
  obtain ⟨permits, hfirst⟩ := dispatch_first (⟨(), fun _ _ => none, []⟩ : Execution.World Unit) hj
  have hslot : Job.leafSlot (.command prepared) = some ["slow"] := rfl
  have hlimit : leafLimit framework ["slow"] = some 1 := (jobOf_registered hj).symm
  let spawned (leaf global : Bool) : Spawned Unit :=
    ⟨⟨"slow", ⟨true, none⟩⟩, .command prepared, some .aborted, leaf, global⟩
  have hstopped : ∃ stopped, run (own framework) (Application.start framework ⟨(), fun _ _ => none, []⟩)
      [.dispatch (interactionEvent interaction) none, .abort 0, .cancel 0] = some stopped ∧
        stopped.spawned = [spawned true true] := ⟨_, by rw [run, hfirst]; rfl, rfl⟩
  obtain ⟨stopped, hrun, hheld⟩ := hstopped
  have hdropped : ∃ dropped, run (own framework) stopped [.releaseLeaf 0, .releaseGlobal 0] = some dropped ∧
      dropped.spawned = [spawned false false] := by
    obtain ⟨permits, workers, tasks⟩ := stopped
    cases hheld
    exact ⟨_, rfl, rfl⟩
  obtain ⟨dropped, hdrops, hfree⟩ := hdropped
  have hboth := run_append hrun hdrops
  refine ⟨framework, stopped, dropped, hget, hrun, hdrops, ?_, ?_, ?_⟩
  · refine (at_capacity_exact framework _ _ stopped hrun (interactionEvent interaction) none _ hj).1
      (.inr ⟨["slow"], 1, hslot, hlimit, ?_⟩)
    rw [hheld]
    rfl
  · rw [Application.unfinished, hfree]
    rfl
  · refine (at_capacity_exact framework _ _ dropped hboth (interactionEvent interaction) none _ hj).2.1 fun hfilled => ?_
    rcases hfilled with hfull | ⟨path, limit, hpath, hsome, hfull⟩
    · rw [hfree] at hfull
      exact framework.limited hfull.symm
    · rw [hslot, Option.some.injEq] at hpath
      rw [← hpath, hlimit, Option.some.injEq] at hsome
      rw [hfree, ← hsome] at hfull
      have hnone : [spawned false false].countP (Spawned.on path) = 0 := rfl
      omega

end GloamCommands.Dispatch
