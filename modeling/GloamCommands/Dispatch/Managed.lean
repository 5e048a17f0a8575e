/-
  GloamCommands.Dispatch.Managed — what holds over a whole managed run.

  A managed run is `driveTasks`: deliveries, each with the moves of the tasks around it,
  then the loop's return; after that the moves on what has been dropped. A `Watch` says
  what a command shows at its first poll and at the end of each await, and `managedLog` is
  all that a run shows.
  - `managed_invariant`: what polls, awaits, completions and spawns keep of the tasks and
    of what has been seen holds when the loop returns, whichever way it does.
  - `Workers.Registered`: its commands are those of registered leaves.
-/

import GloamCommands.Dispatch.Shutdown

namespace GloamCommands.Dispatch

variable {D ω : Type}

/-! ## Watching -/

/-- What is seen of a command's first poll, and of an await that ends. -/
structure Watch (D ω : Type) where
  started : Nat → PreparedCommand D → List ω
  awaited : Nat → Progress D → Instant → Execution.World D → List ω

def Watch.seen (watch : Watch D ω) (workers : Workers D) : TaskMove → List ω
  | .start task =>
    match workers.live[task]?, workers.progress task with
    | some (some (.command command)), none => watch.started task command
    | _, _ => []
  | .resume task clock =>
    match workers.live[task]?, workers.progress task with
    | some (some (.command _)), some p =>
      match p.advance clock workers.world with
      | some _ => watch.awaited task p clock workers.world
      | none => []
    | _, _ => []
  | .autocomplete .. => []

def Watch.over (watch : Watch D ω) (workers : Workers D) : List TaskMove → List ω
  | [] => []
  | move :: rest => watch.seen workers move ++ watch.over (workers.move move) rest

def Watch.moves (watch : Watch D ω) (workers : Workers D) (moves : List TaskMove) : List ω :=
  watch.over { workers with endings := [] } moves

def Watch.drive (watch : Watch D ω) (framework : Framework D) (synchronize : ApplicationId → Except Error Unit)
    (last : List TaskMove) (loop : Loop D) (workers : Workers D) : List Delivery → List ω
  | [] => watch.moves workers last
  | delivery :: rest =>
    let before := workers.moves delivery.before
    let during := before.moves delivery.during
    watch.moves workers delivery.before ++ watch.moves before delivery.during ++
      match driveEvent framework synchronize loop ⟨before.endings, delivery.event, during.endings⟩ with
      | .error _ => []
      | .ok loop => watch.drive framework synchronize last loop { during with live := loop.tasks.live } rest

/-- The tasks when the loop returns. -/
def managedRun (framework : Framework D) (synchronize : ApplicationId → Except Error Unit) (world : Execution.World D)
    (last : List TaskMove) (deliveries : List Delivery) : Workers D :=
  (driveTasks framework synchronize last (Loop.start framework) (Workers.start world) deliveries).2

/-- What is seen of a managed run, and of what is tried after it. -/
def Watch.managedLog (watch : Watch D ω) (framework : Framework D) (synchronize : ApplicationId → Except Error Unit)
    (world : Execution.World D) (last later : List TaskMove) (deliveries : List Delivery) : List ω :=
  watch.drive framework synchronize last (Loop.start framework) (Workers.start world) deliveries ++
    watch.moves (managedRun framework synchronize world last deliveries).dropped later

def Dispatched (framework : Framework D) (job : Job D) : Prop :=
  ∃ event shardId, jobOf (prepareDispatch framework event shardId) = .ok job

/-! ## Spawning -/

theorem executeJob_spawned {loop next : Loop D} {tasks : Tasks D} {job : Job D} (h : executeJob loop tasks job = .ok next) :
    ∃ spawned, next.tasks.live = tasks.live ++ spawned ∧ (spawned = [] ∨ spawned = [some job]) := by
  unfold executeJob at h
  split at h
  · cases h
  · cases h
    exact ⟨[], (List.append_nil _).symm, .inl rfl⟩
  · cases h
    exact ⟨[some job], rfl, .inr rfl⟩

theorem driveEvent_spawned {framework : Framework D} {synchronize : ApplicationId → Except Error Unit} {loop next : Loop D}
    {arrival : Arrival} (h : driveEvent framework synchronize loop arrival = .ok next) :
    ∃ spawned, next.tasks.live = ((loop.tasks.settle arrival.before).reaped.settle arrival.during).live ++ spawned ∧
      (spawned = [] ∨ ∃ job, Dispatched framework job ∧ spawned = [some job]) := by
  unfold driveEvent at h
  dsimp only at h
  split at h
  · cases h
  split at h
  · cases h
  split at h
  · cases h
  split at h
  · cases h
  rename_i event _ _ _ prepared hprepared
  cases prepared with
  | command command =>
    obtain ⟨spawned, hlive, hone⟩ := executeJob_spawned h
    exact ⟨spawned, hlive, hone.imp_right fun heq => ⟨_, ⟨_, _, by rw [hprepared]; rfl⟩, heq⟩⟩
  | autocomplete autocomplete =>
    obtain ⟨spawned, hlive, hone⟩ := executeJob_spawned h
    exact ⟨spawned, hlive, hone.imp_right fun heq => ⟨_, ⟨_, _, by rw [hprepared]; rfl⟩, heq⟩⟩
  | ignored =>
    cases h
    exact ⟨[], (List.append_nil _).symm, .inl rfl⟩
  | unregistered name =>
    cases h
    exact ⟨[], (List.append_nil _).symm, .inl rfl⟩

/-! ## Registered leaves -/

def OfLeaf (framework : Framework D) (command : PreparedCommand D) : Prop :=
  ∃ leaf, framework.registry.leafAt command.context.commandPath = some leaf ∧ leaf.policy = some command.policy

theorem dispatched_leaf {framework : Framework D} {command : PreparedCommand D}
    (h : Dispatched framework (.command command)) : OfLeaf framework command := by
  obtain ⟨event, shardId, hjob⟩ := h
  cases hprepared : prepareDispatch framework event shardId with
  | error error =>
    rw [hprepared] at hjob
    cases hjob
  | ok prepared =>
    rw [hprepared] at hjob
    cases prepared with
    | command prepared =>
      cases hjob
      exact prepareDispatch_leaf hprepared
    | _ => cases hjob

structure Workers.Registered (framework : Framework D) (workers : Workers D) : Prop where
  live : ∀ (task : Nat) (command : PreparedCommand D), workers.live[task]? = some (some (.command command)) →
    OfLeaf framework command
  polled : ∀ (task : Nat) (p : Progress D), workers.progress task = some p → OfLeaf framework p.command

theorem finish_registered {framework : Framework D} {workers : Workers D} (h : workers.Registered framework) (task : Nat)
    (result : Except Error Unit) : (workers.finish task result).Registered framework := by
  refine ⟨fun other command hlive => ?_, h.polled⟩
  change (workers.live.set task none)[other]? = _ at hlive
  by_cases ho : task = other
  · subst ho
    rw [List.getElem?_set] at hlive
    split at hlive
    · split at hlive <;> cases hlive
    · rename_i hne
      exact absurd rfl hne
  · rw [List.getElem?_set_ne ho] at hlive
    exact h.live other command hlive

theorem put_registered {framework : Framework D} {workers : Workers D} (h : workers.Registered framework) {task : Nat}
    {p : Progress D} (world : Execution.World D) (hp : OfLeaf framework p.command) :
    (workers.put task p world).Registered framework := by
  have hmoved : Workers.Registered framework
      { workers with progress := Function.update workers.progress task (some p), world := world } := by
    refine ⟨h.live, fun other q hq => ?_⟩
    change Function.update workers.progress task (some p) other = some q at hq
    by_cases ho : other = task
    · subst ho
      rw [Function.update_self] at hq
      rw [← Option.some.inj hq]
      exact hp
    · rw [Function.update_of_ne ho] at hq
      exact h.polled other q hq
  unfold Workers.put
  dsimp only
  split
  · exact finish_registered hmoved task _
  · exact hmoved

theorem moved_registered {framework : Framework D} {workers after : Workers D} (h : workers.Registered framework)
    (hmoved : Moved workers after) : after.Registered framework := by
  cases hmoved with
  | stays => exact h
  | starts hlive => exact put_registered h _ (h.live _ _ hlive)
  | resumes _ hprogress hadvance =>
    obtain ⟨hcommand, -⟩ := Progress.advance_inv hadvance
    exact put_registered h _ (hcommand ▸ h.polled _ _ hprogress)
  | @completes task prepared rest hlive =>
    exact @finish_registered D framework { workers with world := (prepared.execute rest workers.world).2 }
      ⟨h.live, h.polled⟩ task _

theorem spawn_registered {framework : Framework D} {workers : Workers D} (h : workers.Registered framework) {job : Job D}
    (hjob : Dispatched framework job) :
    Workers.Registered framework { workers with live := workers.live ++ [some job] } := by
  refine ⟨fun task command hlive => ?_, h.polled⟩
  change (workers.live ++ [some job])[task]? = _ at hlive
  rw [List.getElem?_append] at hlive
  split at hlive
  · exact h.live task command hlive
  · have hmem := List.mem_of_getElem? hlive
    rw [List.mem_singleton] at hmem
    rw [← Option.some.inj hmem] at hjob
    exact dispatched_leaf hjob

theorem start_registered (framework : Framework D) (world : Execution.World D) :
    (Workers.start world).Registered framework :=
  ⟨fun _ _ h => (by cases h), fun _ _ h => (by cases h)⟩

/-! ## Whole runs -/

/-- The rules of a managed run. -/
structure Kept (watch : Watch D ω) (framework : Framework D) (I : Workers D → List ω → Prop) : Prop where
  forgets : ∀ {workers : Workers D} {log : List ω}, I workers log → I { workers with endings := [] } log
  starts : ∀ {workers : Workers D} {log : List ω} {task : Nat} {command : PreparedCommand D}, I workers log →
    OfLeaf framework command → workers.live[task]? = some (some (.command command)) → workers.progress task = none →
    I (workers.put task (.start command) workers.world) (log ++ watch.started task command)
  resumes : ∀ {workers : Workers D} {log : List ω} {task : Nat} {clock : Instant} {p next : Progress D}
    {world : Execution.World D}, I workers log → OfLeaf framework p.command → workers.progress task = some p →
    p.advance clock workers.world = some (next, world) →
    I (workers.put task next world) (log ++ watch.awaited task p clock workers.world)
  completes : ∀ {workers : Workers D} {log : List ω} {task : Nat} {prepared : PreparedAutocomplete D}
    {rest : Nat → String → List ApplicationCommandOptionChoice → Except Error Unit}, I workers log →
    workers.live[task]? = some (some (.autocomplete prepared)) →
    I ({ workers with world := (prepared.execute rest workers.world).2 }.finish task
      (prepared.execute rest workers.world).1) log
  spawns : ∀ {workers : Workers D} {log : List ω} {job : Job D}, I workers log → Dispatched framework job →
    I { workers with live := workers.live ++ [some job] } log

section Invariant

variable {watch : Watch D ω} {framework : Framework D} {I : Workers D → List ω → Prop}

theorem Kept.move (hkept : Kept watch framework I) {workers : Workers D} {log : List ω}
    (hregistered : workers.Registered framework) (h : I workers log) (move : TaskMove) :
    I (workers.move move) (log ++ watch.seen workers move) := by
  have hstays : I workers (log ++ []) := by
    rw [List.append_nil]
    exact h
  cases move with
  | start task =>
    cases hlive : workers.live[task]? with
    | none => simpa only [Workers.move, Watch.seen, hlive] using hstays
    | some slot =>
      rcases slot with _ | command | prepared
      · simpa only [Workers.move, Watch.seen, hlive] using hstays
      · cases hprogress : workers.progress task with
        | some p => simpa only [Workers.move, Watch.seen, hlive, hprogress] using hstays
        | none =>
          simp only [Workers.move, Watch.seen, hlive, hprogress]
          exact hkept.starts h (hregistered.live task command hlive) hlive hprogress
      · simpa only [Workers.move, Watch.seen, hlive] using hstays
  | resume task clock =>
    cases hlive : workers.live[task]? with
    | none => simpa only [Workers.move, Watch.seen, hlive] using hstays
    | some slot =>
      rcases slot with _ | command | prepared
      · simpa only [Workers.move, Watch.seen, hlive] using hstays
      · cases hprogress : workers.progress task with
        | none => simpa only [Workers.move, Watch.seen, hlive, hprogress] using hstays
        | some p =>
          cases hadvance : p.advance clock workers.world with
          | none => simpa only [Workers.move, Watch.seen, hlive, hprogress, hadvance] using hstays
          | some after =>
            simp only [Workers.move, Watch.seen, hlive, hprogress, hadvance]
            exact hkept.resumes h (hregistered.polled task p hprogress) hprogress hadvance
      · simpa only [Workers.move, Watch.seen, hlive] using hstays
  | autocomplete task rest =>
    rw [Watch.seen, List.append_nil, Workers.move]
    split
    · rename_i prepared hlive
      exact hkept.completes h hlive
    · exact h

theorem Kept.moves (hkept : Kept watch framework I) {workers : Workers D} {log : List ω}
    (hregistered : workers.Registered framework) (h : I workers log) (moves : List TaskMove) :
    (workers.moves moves).Registered framework ∧ I (workers.moves moves) (log ++ watch.moves workers moves) := by
  have hover : ∀ {w : Workers D} {log : List ω}, w.Registered framework → I w log →
      (moves.foldl Workers.move w).Registered framework ∧ I (moves.foldl Workers.move w) (log ++ watch.over w moves) := by
    induction moves with
    | nil =>
      intro w log hregistered h
      rw [Watch.over, List.append_nil]
      exact ⟨hregistered, h⟩
    | cons move rest ih =>
      intro w log hregistered h
      rw [Watch.over, ← List.append_assoc]
      exact ih (moved_registered hregistered (move_moved w move)) (hkept.move hregistered h move)
  exact hover ⟨hregistered.live, hregistered.polled⟩ (hkept.forgets h)

theorem Kept.drive (hkept : Kept watch framework I) (synchronize : ApplicationId → Except Error Unit)
    (last : List TaskMove) (deliveries : List Delivery) :
    ∀ {loop : Loop D} {workers : Workers D} {log : List ω}, loop.tasks.live = workers.live →
      workers.Registered framework → I workers log →
      I (driveTasks framework synchronize last loop workers deliveries).2
        (log ++ watch.drive framework synchronize last loop workers deliveries) := by
  induction deliveries with
  | nil => exact fun _ hregistered h => (hkept.moves hregistered h last).2
  | cons delivery rest ih =>
    intro loop workers log hlive hregistered h
    obtain ⟨hregistered, h⟩ := hkept.moves hregistered h delivery.before
    obtain ⟨hregistered, h⟩ := hkept.moves hregistered h delivery.during
    cases hnext : driveEvent framework synchronize loop ⟨(workers.moves delivery.before).endings, delivery.event,
        ((workers.moves delivery.before).moves delivery.during).endings⟩ with
    | error error =>
      simp only [driveTasks, Watch.drive, hnext, List.append_nil]
      rw [← List.append_assoc]
      exact h
    | ok next =>
      simp only [driveTasks, Watch.drive, hnext]
      have hbefore := moves_settles workers delivery.before loop.tasks hlive
      have hsettled := moves_settles (workers.moves delivery.before) delivery.during
        (loop.tasks.settle (workers.moves delivery.before).endings).reaped hbefore
      obtain ⟨spawned, hspawned, hone⟩ := driveEvent_spawned hnext
      rw [hsettled] at hspawned
      rw [← List.append_assoc, ← List.append_assoc, hspawned]
      rcases hone with rfl | ⟨job, hjob, rfl⟩
      · rw [List.append_nil] at hspawned ⊢
        exact ih hspawned hregistered h
      · exact ih hspawned (spawn_registered hregistered hjob) (hkept.spawns h hjob)

theorem dropped_unseen (watch : Watch D ω) (workers : Workers D) (later : List TaskMove) :
    watch.moves workers.dropped later = [] := by
  have hunseen : ∀ move, watch.seen { workers.dropped with endings := [] } move = [] := by
    intro move
    cases move with
    | start task =>
      unfold Watch.seen
      dsimp only
      split
      · rename_i hlive _
        exact absurd hlive (dropped_idle workers task _)
      · rfl
    | resume task clock =>
      unfold Watch.seen
      dsimp only
      split
      · rename_i hlive _
        exact absurd hlive (dropped_idle workers task _)
      · rfl
    | autocomplete => rfl
  unfold Watch.moves
  induction later with
  | nil => rfl
  | cons move rest ih => rw [Watch.over, hunseen, dropped_stays, ih, List.append_nil]

/-- A managed run from its start, with what is tried after it. -/
theorem managed_invariant (hkept : Kept watch framework I) (synchronize : ApplicationId → Except Error Unit)
    {world : Execution.World D} (last later : List TaskMove) (deliveries : List Delivery)
    (hstart : I (Workers.start world) []) :
    I (managedRun framework synchronize world last deliveries)
      (watch.managedLog framework synchronize world last later deliveries) := by
  rw [Watch.managedLog, dropped_unseen, List.append_nil]
  exact hkept.drive synchronize last deliveries (show (Loop.start framework).tasks.live = _ from rfl)
    (start_registered framework world) hstart

end Invariant

end GloamCommands.Dispatch
