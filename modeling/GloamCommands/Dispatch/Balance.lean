/-
  GloamCommands.Dispatch.Balance — the permits of the loops (`drive_shards` and loops on
  `dispatch_shard`, crates/gloam-commands/src/framework.rs).

  `Permits` takes an attempt apart; here are the loops' own tasks: each live task has a
  global permit, and one of its leaf if that is limited, and whoever ends it drops both.
  When `drive_shards` returns its `JoinSet` is dropped, and every task that is still in it
  is aborted (`Tasks.dropped`).
  - `Balanced`: free permits and live tasks are the limits.
  - `managed_capacity`: this holds in every turn of the managed loop, and after its return
    all of the framework's capacity is there again.
-/

import GloamCommands.Dispatch.Drain
import GloamCommands.Dispatch.Drive

namespace GloamCommands.Dispatch

open Lib (Conserved)

variable {D : Type}

/-! ## Balance -/

def slotOn (path : List String) (slot : Option (Job D)) : Bool :=
  match slot with
  | some job => job.leafSlot == some path
  | none => false

structure Balanced (framework : Framework D) (tasks : Tasks D) : Prop where
  global : Conserved framework.maxConcurrentCommands tasks.permits.global.available Option.isSome tasks.live
  leaf : ∀ path, Conserved ((leafLimit framework path).getD 0) (tasks.permits.leaf path).available (slotOn path) tasks.live
  isOpen : tasks.permits.Open

def Tasks.dropped (tasks : Tasks D) : Tasks D :=
  tasks.settle ((List.range tasks.live.length).map fun task => (task, .aborted))

theorem start_balanced (framework : Framework D) : Balanced framework (Loop.start framework).tasks :=
  ⟨rfl, fun _ => rfl, rfl, fun _ => rfl⟩

theorem Balanced.same {framework : Framework D} {tasks tasks' : Tasks D} (h : Balanced framework tasks)
    (hpermits : tasks'.permits = tasks.permits) (hlive : tasks'.live = tasks.live) : Balanced framework tasks' := by
  refine ⟨?_, fun path => ?_, ?_⟩
  · rw [hpermits, hlive]
    exact h.global
  · rw [hpermits, hlive]
    exact h.leaf path
  · rw [hpermits]
    exact h.isOpen

theorem finish_balanced {framework : Framework D} {tasks : Tasks D} (h : Balanced framework tasks) (done : Nat × Ending) :
    Balanced framework (tasks.finish done) := by
  have hopen := finish_open h.isOpen done
  unfold Tasks.finish at hopen ⊢
  split
  · rename_i job hlive
    rw [hlive] at hopen
    refine ⟨?_, fun path => ?_, hopen⟩
    · have hgiven := h.global.give hlive (b := none) rfl rfl
      cases hs : job.leafSlot with
      | none =>
        rw [dropLeaf_none hs]
        exact hgiven
      | some path =>
        rw [dropLeaf_some hs]
        exact hgiven
    · cases hs : job.leafSlot with
      | none =>
        rw [dropLeaf_none hs]
        exact (h.leaf path).keep hlive (by simp [slotOn, hs])
      | some slot =>
        rw [dropLeaf_some hs]
        by_cases hpath : path = slot
        · subst hpath
          have hgiven := (h.leaf path).give hlive (b := none) (by simp [slotOn, hs]) rfl
          show Conserved _ (Function.update tasks.permits.leaf path _ path).available _ _
          rw [Function.update_self]
          exact hgiven
        · show Conserved _ (Function.update tasks.permits.leaf slot _ path).available _ _
          rw [Function.update_of_ne hpath]
          exact (h.leaf path).keep hlive (by simp [slotOn, hs, Ne.symm hpath])
  · exact h

theorem settle_balanced {framework : Framework D} (done : List (Nat × Ending)) :
    ∀ {tasks : Tasks D}, Balanced framework tasks → Balanced framework (tasks.settle done) := by
  induction done with
  | nil => exact fun h => h
  | cons d rest ih => exact fun h => ih (finish_balanced h d)

theorem spawn_balanced {framework : Framework D} {tasks : Tasks D} (h : Balanced framework tasks) {job : Job D}
    {withLeaf withBoth : Permits} (hleaf : takeLeaf job tasks.permits = .ok withLeaf)
    (hglobal : takeGlobal withLeaf = .ok withBoth) : Balanced framework (tasks.spawn job withBoth) := by
  have hopen := (takeGlobal_open ((takeLeaf_open h.isOpen).1 withLeaf hleaf)).1 withBoth hglobal
  obtain ⟨hfree, rfl⟩ := takeGlobal_ok hglobal
  rcases takeLeaf_ok hleaf with ⟨hs, rfl⟩ | ⟨slot, hs, hslot, rfl⟩
  · exact ⟨h.global.enter hfree rfl, fun path => (h.leaf path).concat (by simp [slotOn, hs]), hopen⟩
  · refine ⟨h.global.enter hfree rfl, fun path => ?_, hopen⟩
    by_cases hpath : path = slot
    · subst hpath
      show Conserved _ (Function.update tasks.permits.leaf path _ path).available _ _
      rw [Function.update_self]
      exact (h.leaf path).enter hslot (by simp [slotOn, hs])
    · show Conserved _ (Function.update tasks.permits.leaf slot _ path).available _ _
      rw [Function.update_of_ne hpath]
      exact (h.leaf path).concat (by simp [slotOn, hs, Ne.symm hpath])

/-! ## The managed loop -/

theorem executeJob_balanced {framework : Framework D} {loop next : Loop D} {tasks : Tasks D} {job : Job D}
    (h : Balanced framework tasks) (hnext : executeJob loop tasks job = .ok next) : Balanced framework next.tasks := by
  unfold executeJob at hnext
  rcases tryExecute_cases job tasks.permits with ⟨error, -, ht⟩ | ⟨withLeaf, error, -, -, ht⟩ |
    ⟨withLeaf, withBoth, hleaf, hglobal, ht⟩
  · rw [ht] at hnext
    cases error with
    | closed => cases hnext
    | noPermits =>
      cases hnext
      exact h
  · rw [ht] at hnext
    cases error with
    | closed => cases hnext
    | noPermits =>
      cases hnext
      exact h
  · rw [ht] at hnext
    cases hnext
    exact spawn_balanced h hleaf hglobal

theorem driveEvent_balanced {framework : Framework D} {synchronize : ApplicationId → Except Error Unit} {loop next : Loop D}
    {arrival : Arrival} (h : Balanced framework loop.tasks) (hnext : driveEvent framework synchronize loop arrival = .ok next) :
    Balanced framework next.tasks := by
  have hreaped : Balanced framework (loop.tasks.settle arrival.before).reaped :=
    (settle_balanced arrival.before h).same rfl rfl
  have htasks := settle_balanced arrival.during hreaped
  unfold driveEvent at hnext
  dsimp only at hnext
  split at hnext
  · cases hnext
  split at hnext
  · cases hnext
  split at hnext
  · cases hnext
  split at hnext
  · cases hnext
  rename_i prepared _
  cases prepared with
  | command command => exact executeJob_balanced htasks hnext
  | autocomplete autocomplete => exact executeJob_balanced htasks hnext
  | ignored =>
    cases hnext
    exact htasks
  | unregistered name =>
    cases hnext
    exact htasks

theorem driveShards_balanced {framework : Framework D} (synchronize : ApplicationId → Except Error Unit)
    (last : List (Nat × Ending)) (arrivals : List Arrival) : ∀ {loop : Loop D}, Balanced framework loop.tasks →
      Balanced framework (driveShards framework synchronize last loop arrivals).2.tasks := by
  induction arrivals with
  | nil => exact fun h => h
  | cons arrival rest ih =>
    intro loop h
    cases hnext : driveEvent framework synchronize loop arrival with
    | error error =>
      rw [driveShards, hnext]
      exact h
    | ok next =>
      rw [driveShards, hnext]
      exact ih (driveEvent_balanced h hnext)

/-! ## After the loop -/

theorem finish_ended {tasks : Tasks D} {task : Nat} (h : ∀ job, tasks.live[task]? ≠ some (some job)) (done : Nat × Ending) :
    ∀ job, (tasks.finish done).live[task]? ≠ some (some job) := by
  intro job
  unfold Tasks.finish
  split
  · show (tasks.live.set done.1 none)[task]? ≠ _
    by_cases ht : done.1 = task
    · subst ht
      rw [List.getElem?_set]
      split
      · split <;> exact fun hsome => by cases hsome
      · rename_i hne
        exact absurd rfl hne
    · rw [List.getElem?_set_ne ht]
      exact h job
  · exact h job

theorem finish_ends (tasks : Tasks D) (done : Nat × Ending) (job : Job D) :
    (tasks.finish done).live[done.1]? ≠ some (some job) := by
  unfold Tasks.finish
  split
  · show (tasks.live.set done.1 none)[done.1]? ≠ _
    rw [List.getElem?_set]
    split
    · split <;> exact fun hsome => by cases hsome
    · rename_i hne
      exact absurd rfl hne
  · rename_i hno
    exact hno job

theorem settle_ended (done : List (Nat × Ending)) : ∀ {tasks : Tasks D} {task : Nat},
    (∀ job, tasks.live[task]? ≠ some (some job)) → ∀ job, (tasks.settle done).live[task]? ≠ some (some job) := by
  induction done with
  | nil => exact fun h => h
  | cons d rest ih => exact fun h => ih (finish_ended h d)

theorem settle_ends (done : List (Nat × Ending)) : ∀ {tasks : Tasks D} {task : Nat}, task ∈ done.map (·.1) →
    ∀ job, (tasks.settle done).live[task]? ≠ some (some job) := by
  induction done with
  | nil => exact fun h => (by cases h)
  | cons d rest ih =>
    intro tasks task h
    rw [List.map_cons, List.mem_cons] at h
    rcases h with rfl | h
    · exact settle_ended rest (finish_ends tasks d)
    · exact ih h

theorem dropped_ended (tasks : Tasks D) : ∀ slot ∈ tasks.dropped.live, slot = none := by
  intro slot hslot
  obtain ⟨task, htask⟩ := List.getElem?_of_mem hslot
  cases slot with
  | none => rfl
  | some job =>
    by_cases hlt : task < tasks.live.length
    · refine absurd htask (settle_ends _ ?_ job)
      rw [List.map_map]
      exact List.mem_map.mpr ⟨task, List.mem_range.mpr hlt, rfl⟩
    · refine absurd htask (settle_ended _ (fun other => ?_) job)
      rw [List.getElem?_eq_none (Nat.le_of_not_lt hlt)]
      exact fun hsome => by cases hsome

/-- With no task live the framework is as it was built. -/
theorem balanced_idle {framework : Framework D} {tasks : Tasks D} (h : Balanced framework tasks)
    (hidle : ∀ slot ∈ tasks.live, slot = none) :
    tasks.permits.global.available = framework.maxConcurrentCommands ∧
      (∀ path limit, leafLimit framework path = some limit → (tasks.permits.leaf path).available = limit) ∧
      ∀ event shardId job, jobOf (prepareDispatch framework event shardId) = .ok job →
        (dispatch framework event shardId true tasks.permits).1 = .ok (.spawned job.commandName) := by
  have hglobal := h.global.free fun slot hslot => by rw [hidle slot hslot]; rfl
  have hleaf : ∀ path limit, leafLimit framework path = some limit → (tasks.permits.leaf path).available = limit := by
    intro path limit hlimit
    have hfree := (h.leaf path).free fun slot hslot => by rw [hidle slot hslot]; rfl
    rw [hfree, hlimit, Option.getD_some]
  exact ⟨hglobal, hleaf, fun event shardId job hj => dispatch_free h.isOpen hglobal hleaf hj⟩

/-- In every turn of the managed loop, and whatever ends before the next, free permits and
    live tasks are the limits. However the loop returns, once the tasks that are still live
    are aborted every permit is free, and the framework spawns whatever there is to execute. -/
theorem managed_capacity (framework : Framework D) (synchronize : ApplicationId → Except Error Unit)
    (arrivals : List Arrival) (last meantime : List (Nat × Ending)) :
    let tasks := (driveShards framework synchronize last (Loop.start framework) arrivals).2.tasks.settle meantime
    tasks.permits.global.available + tasks.live.countP Option.isSome = framework.maxConcurrentCommands ∧
      (∀ path limit, leafLimit framework path = some limit →
        (tasks.permits.leaf path).available + tasks.live.countP (slotOn path) = limit) ∧
      tasks.dropped.permits.global.available = framework.maxConcurrentCommands ∧
      (∀ path limit, leafLimit framework path = some limit → (tasks.dropped.permits.leaf path).available = limit) ∧
      ∀ event shardId job, jobOf (prepareDispatch framework event shardId) = .ok job →
        (dispatch framework event shardId true tasks.dropped.permits).1 = .ok (.spawned job.commandName) := by
  intro tasks
  have hbalanced : Balanced framework tasks :=
    settle_balanced meantime (driveShards_balanced synchronize last arrivals (start_balanced framework))
  refine ⟨hbalanced.global, fun path limit hlimit => ?_, ?_⟩
  · have hleaf := hbalanced.leaf path
    rw [hlimit] at hleaf
    exact hleaf
  · exact balanced_idle (settle_balanced _ hbalanced) (dropped_ended tasks)

end GloamCommands.Dispatch
