/-
  GloamCommands.Dispatch.Shutdown — what `drive_shards` leaves of the commands it spawned
  (crates/gloam-commands/src/framework.rs).

  The spawned tasks are in a `JoinSet` that `drive_shards` owns, so it is dropped at each
  of the loop's exits, and tokio aborts the tasks still in it. Here the loop of `Drive` is
  run with the tasks taken apart: a delivery has the moves they make before the event is
  there and while it is handled, and a task ends when its last await does (`driveTasks`).
  What a handler does is given by the framework; when it gets to do it, by the schedule.
  No handler panics. A poll under way when the set is dropped counts as before it.
  - `driveTasks_driveShards`: the loop is `driveShards`, on the endings that the moves make.
  - `driveTasks_placed`: whenever it returns, a task is live exactly if it has not returned.
-/

import GloamCommands.Dispatch.Drive
import GloamCommands.Dispatch.Progress

namespace GloamCommands.Dispatch

variable {D : Type}

/-! ## The tasks at work -/

/-- What a task does when it is polled. A panic of a handler or a hook is none of it. -/
inductive TaskMove where
  /-- The first poll of a command's task. -/
  | start (task : Nat)
  /-- The await a command's task is in ends; the clock is read if it is the policy's. -/
  | resume (task : Nat) (clock : Instant)
  /-- An autocomplete task runs, and REST answers. -/
  | autocomplete (task : Nat) (rest : Nat → String → List ApplicationCommandOptionChoice → Except Error Unit)

/-- The spawned tasks, and what they share. -/
structure Workers (D : Type) where
  /-- As in `Tasks`. -/
  live : List (Option (Job D))
  /-- `none` until a command's task has been polled. -/
  progress : Nat → Option (Progress D)
  world : Execution.World D
  /-- The tasks that have ended since the moves began. -/
  endings : List (Nat × Ending)

def Workers.start (world : Execution.World D) : Workers D := ⟨[], fun _ => none, world, []⟩

def Workers.finish (workers : Workers D) (task : Nat) (result : Except Error Unit) : Workers D :=
  { workers with live := workers.live.set task none, endings := workers.endings ++ [(task, .completed result)] }

def Workers.put (workers : Workers D) (task : Nat) (p : Progress D) (world : Execution.World D) : Workers D :=
  let workers := { workers with progress := Function.update workers.progress task (some p), world := world }
  match p.point with
  | .returned result => workers.finish task result
  | _ => workers

/-- A move of a task that is not live, or that has not been polled, does nothing. -/
def Workers.move (workers : Workers D) : TaskMove → Workers D
  | .start task =>
    match workers.live[task]?, workers.progress task with
    | some (some (.command command)), none => workers.put task (.start command) workers.world
    | _, _ => workers
  | .resume task clock =>
    match workers.live[task]?, workers.progress task with
    | some (some (.command _)), some p =>
      match p.advance clock workers.world with
      | some (next, world) => workers.put task next world
      | none => workers
    | _, _ => workers
  | .autocomplete task rest =>
    match workers.live[task]? with
    | some (some (.autocomplete prepared)) =>
      { workers with world := (prepared.execute rest workers.world).2 }.finish task
        (prepared.execute rest workers.world).1
    | _ => workers

def Workers.moves (workers : Workers D) (moves : List TaskMove) : Workers D :=
  moves.foldl Workers.move { workers with endings := [] }

theorem moves_nil (workers : Workers D) : workers.moves [] = { workers with endings := [] } := rfl

def Workers.dropped (workers : Workers D) : Workers D := { workers with live := workers.live.map fun _ => none }

inductive Moved (workers : Workers D) : Workers D → Prop
  | stays : Moved workers workers
  | starts {task : Nat} {command : PreparedCommand D} : workers.live[task]? = some (some (.command command)) →
      Moved workers (workers.put task (.start command) workers.world)
  | resumes {task : Nat} {clock : Instant} {command : PreparedCommand D} {p next : Progress D}
      {world : Execution.World D} : workers.live[task]? = some (some (.command command)) →
      workers.progress task = some p → p.advance clock workers.world = some (next, world) →
      Moved workers (workers.put task next world)
  | completes {task : Nat} {prepared : PreparedAutocomplete D}
      {rest : Nat → String → List ApplicationCommandOptionChoice → Except Error Unit} :
      workers.live[task]? = some (some (.autocomplete prepared)) →
      Moved workers ({ workers with world := (prepared.execute rest workers.world).2 }.finish task
        (prepared.execute rest workers.world).1)

theorem move_moved (workers : Workers D) (move : TaskMove) : Moved workers (workers.move move) := by
  cases move with
  | start task =>
    unfold Workers.move
    dsimp only
    split
    · rename_i command hlive _
      exact .starts hlive
    · exact .stays
  | resume task clock =>
    unfold Workers.move
    dsimp only
    split
    · rename_i command p hlive hp
      split
      · rename_i next world hadvance
        exact .resumes hlive hp hadvance
      · exact .stays
    · exact .stays
  | autocomplete task rest =>
    unfold Workers.move
    dsimp only
    split
    · rename_i prepared hlive
      exact .completes hlive
    · exact .stays

/-! ## The loop -/

structure Delivery where
  before : List TaskMove
  event : Except Error ShardEvent
  during : List TaskMove

/-- `drive_shards`: its return, and the tasks at that moment. -/
def driveTasks (framework : Framework D) (synchronize : ApplicationId → Except Error Unit) (last : List TaskMove)
    (loop : Loop D) (workers : Workers D) : List Delivery → Exit × Workers D
  | [] =>
    let workers := workers.moves last
    (.streamEnd (reapCompletedCommands (loop.tasks.settle workers.endings).ended), workers)
  | delivery :: rest =>
    let before := workers.moves delivery.before
    let during := before.moves delivery.during
    match driveEvent framework synchronize loop ⟨before.endings, delivery.event, during.endings⟩ with
    | .error error => (.early error, during)
    | .ok loop => driveTasks framework synchronize last loop { during with live := loop.tasks.live } rest

/-- The loop does what `driveShards` does, with the endings that the moves make. -/
theorem driveTasks_driveShards (framework : Framework D) (synchronize : ApplicationId → Except Error Unit)
    (last : List TaskMove) (deliveries : List Delivery) : ∀ (loop : Loop D) (workers : Workers D),
    ∃ arrivals endings, arrivals.map (·.event) = deliveries.map (·.event) ∧
      (driveTasks framework synchronize last loop workers deliveries).1 =
        (driveShards framework synchronize endings loop arrivals).1 := by
  induction deliveries with
  | nil => exact fun loop workers => ⟨[], _, rfl, rfl⟩
  | cons delivery rest ih =>
    intro loop workers
    let before := workers.moves delivery.before
    let during := before.moves delivery.during
    let arrival : Arrival := ⟨before.endings, delivery.event, during.endings⟩
    cases hd : driveEvent framework synchronize loop arrival with
    | error error =>
      refine ⟨arrival :: rest.map fun later => ⟨[], later.event, []⟩, [], by simp [arrival], ?_⟩
      rw [driveTasks, driveShards, hd]
    | ok loop' =>
      obtain ⟨arrivals, endings, hevents, hexit⟩ := ih loop' { during with live := loop'.tasks.live }
      refine ⟨arrival :: arrivals, endings, by simp [arrival, hevents], ?_⟩
      rw [driveTasks, driveShards, hd]
      exact hexit

/-! ## Where the tasks are -/

def Progress.slot (p : Progress D) : Option (Job D) :=
  match p.point with
  | .returned _ => none
  | _ => some (.command p.command)

/-- A task has ended exactly if its execution has returned. -/
def Workers.Placed (workers : Workers D) : Prop :=
  ∀ task p, workers.progress task = some p → workers.live[task]? = some p.slot

theorem slot_none {p : Progress D} : p.slot = none ↔ ∃ result, p.point = .returned result := by
  unfold Progress.slot
  cases p.point <;> simp

theorem slot_some {p : Progress D} {job : Job D} (h : p.slot = some job) : job = .command p.command := by
  unfold Progress.slot at h
  split at h
  · cases h
  · exact (Option.some.inj h).symm

theorem finish_placed {workers : Workers D} {task : Nat} (result : Except Error Unit)
    (hothers : ∀ other p, other ≠ task → workers.progress other = some p → workers.live[other]? = some p.slot)
    (hended : ∀ p, workers.progress task = some p → p.slot = none) (hlive : task < workers.live.length) :
    (workers.finish task result).Placed := by
  intro other p hp
  show (workers.live.set task none)[other]? = some p.slot
  by_cases ho : task = other
  · subst ho
    rw [List.getElem?_set_self hlive, hended p hp]
  · rw [List.getElem?_set_ne ho]
    exact hothers other p (Ne.symm ho) hp

theorem put_progress (workers : Workers D) (task : Nat) (p : Progress D) (world : Execution.World D) :
    (workers.put task p world).progress = Function.update workers.progress task (some p) := by
  unfold Workers.put
  dsimp only
  split <;> rfl

theorem put_placed {workers : Workers D} (h : workers.Placed) {task : Nat} {p : Progress D} (world : Execution.World D)
    (hlive : workers.live[task]? = some (some (.command p.command))) : (workers.put task p world).Placed := by
  have hlt : task < workers.live.length := (List.getElem?_eq_some_iff.mp hlive).1
  have hothers : ∀ other q, other ≠ task → Function.update workers.progress task (some p) other = some q →
      workers.live[other]? = some q.slot := by
    intro other q ho hq
    rw [Function.update_of_ne ho] at hq
    exact h other q hq
  have hself : ∀ q, Function.update workers.progress task (some p) task = some q → q = p := by
    intro q hq
    rw [Function.update_self] at hq
    exact (Option.some.inj hq).symm
  unfold Workers.put
  dsimp only
  split
  · rename_i result hpoint
    refine finish_placed result hothers (fun q hq => ?_) hlt
    rw [hself q hq]
    exact slot_none.mpr ⟨result, hpoint⟩
  · rename_i hpoint
    intro other q hq
    by_cases ho : other = task
    · subst ho
      rw [hself q hq]
      show workers.live[other]? = some p.slot
      rw [hlive]
      cases hslot : p.slot with
      | none =>
        obtain ⟨result, hreturned⟩ := slot_none.mp hslot
        exact absurd hreturned (hpoint result)
      | some job => rw [slot_some hslot]
    · exact hothers other q ho hq

theorem moved_placed {workers after : Workers D} (h : workers.Placed) (hmoved : Moved workers after) : after.Placed := by
  cases hmoved with
  | stays => exact h
  | starts hlive => exact put_placed h workers.world hlive
  | @resumes task clock command p next world hlive hp hadvance =>
    obtain ⟨hcommand, -⟩ := Progress.advance_inv hadvance
    have hslot : p.slot = some (.command command) := Option.some.inj ((h task p hp).symm.trans hlive)
    refine put_placed h world ?_
    rw [hcommand, ← slot_some hslot]
    exact hlive
  | @completes task prepared rest hlive =>
    refine finish_placed _ (fun other p _ hp => h other p hp) (fun p hp => ?_) (List.getElem?_eq_some_iff.mp hlive).1
    have hslot : p.slot = some (.autocomplete prepared) := Option.some.inj ((h task p hp).symm.trans hlive)
    cases slot_some hslot

theorem moves_placed {workers : Workers D} (h : workers.Placed) (moves : List TaskMove) : (workers.moves moves).Placed := by
  have hfold : ∀ w : Workers D, w.Placed → (moves.foldl Workers.move w).Placed := by
    induction moves with
    | nil => exact fun w hw => hw
    | cons move rest ih => exact fun w hw => ih _ (moved_placed hw (move_moved w move))
  exact hfold { workers with endings := [] } h

/-! ## The same tasks in both -/

theorem finish_live {tasks : Tasks D} {task : Nat} {job : Job D} (ending : Ending)
    (h : tasks.live[task]? = some (some job)) : (tasks.finish (task, ending)).live = tasks.live.set task none := by
  unfold Tasks.finish
  rw [h]

def Settles (live : List (Option (Job D))) (endings : List (Nat × Ending)) (live' : List (Option (Job D))) : Prop :=
  ∀ tasks : Tasks D, tasks.live = live → (tasks.settle endings).live = live'

theorem settles_nil (live : List (Option (Job D))) : Settles live [] live := fun _ h => h

theorem settles_append {a b c : List (Option (Job D))} {first second : List (Nat × Ending)} (hab : Settles a first b)
    (hbc : Settles b second c) : Settles a (first ++ second) c := by
  intro tasks h
  rw [Tasks.settle, List.foldl_append]
  exact hbc _ (hab tasks h)

theorem settles_finish {live : List (Option (Job D))} {task : Nat} {job : Job D} (ending : Ending)
    (h : live[task]? = some (some job)) : Settles live [(task, ending)] (live.set task none) := by
  intro tasks htasks
  rw [← htasks] at h ⊢
  exact finish_live ending h

theorem put_settles {workers : Workers D} {task : Nat} {job : Job D} (p : Progress D) (world : Execution.World D)
    (hlive : workers.live[task]? = some (some job)) :
    ∃ endings, (workers.put task p world).endings = workers.endings ++ endings ∧
      Settles workers.live endings (workers.put task p world).live := by
  unfold Workers.put
  dsimp only
  split
  · exact ⟨_, rfl, settles_finish _ hlive⟩
  · exact ⟨[], (List.append_nil _).symm, settles_nil _⟩

theorem moved_settles {workers after : Workers D} (hmoved : Moved workers after) :
    ∃ endings, after.endings = workers.endings ++ endings ∧ Settles workers.live endings after.live := by
  cases hmoved with
  | stays => exact ⟨[], (List.append_nil _).symm, settles_nil _⟩
  | starts hlive => exact put_settles _ _ hlive
  | resumes hlive => exact put_settles _ _ hlive
  | completes hlive => exact ⟨_, rfl, settles_finish _ hlive⟩

theorem moves_settles (workers : Workers D) (moves : List TaskMove) :
    Settles workers.live (workers.moves moves).endings (workers.moves moves).live := by
  have hfold : ∀ w : Workers D, ∃ endings, (moves.foldl Workers.move w).endings = w.endings ++ endings ∧
      Settles w.live endings (moves.foldl Workers.move w).live := by
    induction moves with
    | nil => exact fun w => ⟨[], (List.append_nil _).symm, settles_nil _⟩
    | cons move rest ih =>
      intro w
      obtain ⟨first, hfirst, hsettles⟩ := moved_settles (move_moved w move)
      obtain ⟨second, hsecond, hsettles'⟩ := ih (w.move move)
      refine ⟨first ++ second, ?_, settles_append hsettles hsettles'⟩
      rw [List.foldl_cons, hsecond, hfirst, List.append_assoc]
  obtain ⟨endings, hendings, hsettles⟩ := hfold { workers with endings := [] }
  have heq : (workers.moves moves).endings = endings := hendings
  rw [heq]
  exact hsettles

theorem executeJob_live {loop next : Loop D} {tasks : Tasks D} {job : Job D}
    (h : executeJob loop tasks job = .ok next) : ∃ spawned, next.tasks.live = tasks.live ++ spawned := by
  unfold executeJob at h
  split at h
  · cases h
  · cases h
    exact ⟨[], (List.append_nil _).symm⟩
  · cases h
    exact ⟨[some job], rfl⟩

/-- A turn of the loop only adds to the tasks that its moves leave. -/
theorem driveEvent_live {framework : Framework D} {synchronize : ApplicationId → Except Error Unit} {loop next : Loop D}
    {arrival : Arrival} (h : driveEvent framework synchronize loop arrival = .ok next) :
    ∃ spawned, next.tasks.live =
      ((loop.tasks.settle arrival.before).reaped.settle arrival.during).live ++ spawned := by
  unfold driveEvent at h
  dsimp only at h
  split at h
  · cases h
  split at h
  · cases h
  split at h
  · cases h
  split at h
  · cases h
  rename_i prepared _
  cases prepared with
  | command command => exact executeJob_live h
  | autocomplete autocomplete => exact executeJob_live h
  | ignored =>
    cases h
    exact ⟨[], (List.append_nil _).symm⟩
  | unregistered name =>
    cases h
    exact ⟨[], (List.append_nil _).symm⟩

/-- Whenever the loop returns, every task is in its place. -/
theorem driveTasks_placed (framework : Framework D) (synchronize : ApplicationId → Except Error Unit)
    (last : List TaskMove) (deliveries : List Delivery) : ∀ (loop : Loop D) (workers : Workers D),
    loop.tasks.live = workers.live → workers.Placed →
    (driveTasks framework synchronize last loop workers deliveries).2.Placed := by
  induction deliveries with
  | nil => exact fun loop workers _ h => moves_placed h last
  | cons delivery rest ih =>
    intro loop workers hlive h
    have hduring : ((workers.moves delivery.before).moves delivery.during).Placed :=
      moves_placed (moves_placed h delivery.before) delivery.during
    rw [driveTasks]
    split
    · exact hduring
    · rename_i next hnext
      obtain ⟨spawned, hspawned⟩ := driveEvent_live hnext
      have hbefore := moves_settles workers delivery.before loop.tasks hlive
      have hsettled := moves_settles (workers.moves delivery.before) delivery.during
        (loop.tasks.settle (workers.moves delivery.before).endings).reaped hbefore
      refine ih next _ rfl fun task p hp => ?_
      show next.tasks.live[task]? = some p.slot
      have hplace := hduring task p hp
      rw [hspawned, hsettled, List.getElem?_append_left (List.getElem?_eq_some_iff.mp hplace).1]
      exact hplace

/-! ## After the drop -/

theorem moved_idle {workers after : Workers D} (h : ∀ (task : Nat) (job : Job D), workers.live[task]? ≠ some (some job))
    (hmoved : Moved workers after) : after = workers := by
  cases hmoved with
  | stays => rfl
  | starts hlive => exact absurd hlive (h _ _)
  | resumes hlive => exact absurd hlive (h _ _)
  | completes hlive => exact absurd hlive (h _ _)

theorem dropped_idle (workers : Workers D) (task : Nat) (job : Job D) : workers.dropped.live[task]? ≠ some (some job) := by
  intro hlive
  simp only [Workers.dropped, List.getElem?_map] at hlive
  obtain ⟨_, -, hnone⟩ := Option.map_eq_some_iff.mp hlive
  cases hnone

theorem dropped_stays (workers : Workers D) (move : TaskMove) :
    Workers.move { workers.dropped with endings := [] } move = { workers.dropped with endings := [] } :=
  @moved_idle D { workers.dropped with endings := [] } _ (dropped_idle workers) (move_moved _ move)

theorem dropped_moves (workers : Workers D) (later : List TaskMove) :
    workers.dropped.moves later = { workers.dropped with endings := [] } :=
  List.foldl_fixed' (dropped_stays workers) later

theorem dropped_progress (workers : Workers D) (later : List TaskMove) :
    (workers.dropped.moves later).progress = workers.progress := by
  rw [dropped_moves]
  rfl

theorem dropped_world (workers : Workers D) (later : List TaskMove) :
    (workers.dropped.moves later).world = workers.world := by
  rw [dropped_moves]
  rfl

end GloamCommands.Dispatch
