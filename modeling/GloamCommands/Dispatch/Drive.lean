/-
  GloamCommands.Dispatch.Drive — the managed Gateway loop (`drive_shards`,
  `reap_completed_commands` in crates/gloam-commands/src/framework.rs).

  Each turn of the loop waits for an event, takes the results of the tasks that have
  ended, synchronizes the commands on the first READY, prepares the event and spawns
  what there is to execute. Beside it is the loop an application may own instead:
  `dispatch_shard` on each event, its errors ignored.

  The schedule. An arrival is an event with the tasks that end while the loop waits for
  it, and those that end while it is handled. Which tasks have been spawned decides which
  of the endings there are, so both loops read one schedule. A task that ends gives its
  permits back before anyone can take its result.

  What the managed loop survives. Its body has five `?`.
  - `drive_survives_iff`: it gets through every event, deciding each like the manual loop,
    exactly if no task has panicked before an event, and every event can be dispatched.
  - `drive_stops_at_stale_path`: a subcommand nobody registered stops it.
-/

import GloamCommands.Dispatch.Permits

namespace GloamCommands.Dispatch

open Lib (Along)

variable {D : Type}

/-! ## What can be dispatched -/

/-- What an interaction has to be to be prepared, or passed over. -/
inductive DispatchableInteraction (framework : Framework D) (interaction : Interaction) : Prop
  | otherKind : interaction.kind ≠ .applicationCommand → interaction.kind ≠ .applicationCommandAutocomplete →
      DispatchableInteraction framework interaction
  | otherCommand {commandData : ApplicationCommandInteractionData} :
      interaction.applicationCommandData = .ok (some commandData) → commandData.kind ≠ .chatInput →
      DispatchableInteraction framework interaction
  | unregistered {commandData : ApplicationCommandInteractionData} :
      interaction.applicationCommandData = .ok (some commandData) → framework.registry.get commandData.name = none →
      DispatchableInteraction framework interaction
  | command {commandData : ApplicationCommandInteractionData} {command leaf : SlashCommand D}
      {levels : List (String × ApplicationCommandOptionType)} {scope : List Submitted} :
      interaction.applicationCommandData = .ok (some commandData) →
      framework.registry.get commandData.name = some command → Selects command commandData.options levels leaf scope →
      interaction.kind = .applicationCommand → DispatchableInteraction framework interaction
  | autocomplete {commandData : ApplicationCommandInteractionData} {command leaf : SlashCommand D}
      {levels : List (String × ApplicationCommandOptionType)} {scope : List Submitted} {index : Fin scope.length} :
      interaction.applicationCommandData = .ok (some commandData) →
      framework.registry.get commandData.name = some command → Selects command commandData.options levels leaf scope →
      OnlyFocused scope index → Completable leaf.descriptor (scope.get index) →
      DispatchableInteraction framework interaction

/-- An `INTERACTION_CREATE` has to decode, and to be such an interaction. -/
def Dispatchable (framework : Framework D) : GatewayEvent → Prop
  | .other => True
  | .dispatch dispatch =>
    dispatch.name = "INTERACTION_CREATE" →
      ∃ typed, dispatch.typed = .ok typed ∧
        ∀ interaction, typed = .interactionCreate interaction → DispatchableInteraction framework interaction

def ReadyDecodes : GatewayEvent → Prop
  | .other => True
  | .dispatch dispatch => dispatch.name = "READY" → ∃ typed, dispatch.typed = .ok typed

theorem prepareCommand_leaf {framework : Framework D} {interaction : Interaction}
    {commandData : ApplicationCommandInteractionData} {resolved : ResolvedCommand D} {shardId : Option ShardId}
    {descriptor : CommandDescriptor} {kind : SlashCommandLeaf D} (h : resolved.command = .leaf descriptor kind) :
    ∃ prepared, prepareCommand framework interaction commandData resolved shardId = .ok prepared := by
  unfold prepareCommand
  rw [h]
  exact ⟨_, rfl⟩

theorem prepareInteraction_resolved {framework : Framework D} {interaction : Interaction}
    {commandData : ApplicationCommandInteractionData} {command : SlashCommand D} {resolved : ResolvedCommand D}
    {shardId : Option ShardId} (hdata : interaction.applicationCommandData = .ok (some commandData))
    (hget : framework.registry.get commandData.name = some command)
    (hr : resolveCommand command commandData.options = .ok resolved)
    (hauto : interaction.kind = .applicationCommandAutocomplete →
      ∃ prepared, prepareAutocomplete interaction commandData resolved shardId = .ok prepared)
    (hcommand : ∃ prepared, prepareCommand framework interaction commandData resolved shardId = .ok prepared) :
    ∃ prepared, prepareInteraction framework interaction shardId = .ok prepared := by
  unfold prepareInteraction
  split
  · exact ⟨_, rfl⟩
  rw [hdata]
  dsimp only
  split
  · exact ⟨_, rfl⟩
  rw [hget]
  dsimp only
  rw [hr]
  dsimp only
  split
  · rename_i hkind
    exact hauto (beq_iff_eq.mp hkind)
  · exact hcommand

theorem prepareInteraction_iff (framework : Framework D) (interaction : Interaction) (shardId : Option ShardId) :
    (∃ prepared, prepareInteraction framework interaction shardId = .ok prepared) ↔
      DispatchableInteraction framework interaction := by
  constructor
  · intro ⟨prepared, h⟩
    unfold prepareInteraction at h
    split at h
    · rename_i hkind
      simp only [Bool.and_eq_true, bne_iff_ne, ne_eq] at hkind
      exact .otherKind hkind.1 hkind.2
    rename_i hkind
    split at h
    · cases h
    · cases h
    rename_i commandData hdata
    split at h
    · rename_i hother
      exact .otherCommand hdata (bne_iff_ne.mp hother)
    split at h
    · rename_i hnone
      exact .unregistered hdata hnone
    rename_i command hget
    split at h
    · cases h
    rename_i resolved hr
    obtain ⟨levels, hs, -⟩ := resolve_selects hr
    split at h
    · obtain ⟨⟨index, hfocus, hc⟩, -⟩ := prepareAutocomplete_inv h
      exact .autocomplete hdata hget hs hfocus hc
    · rename_i hauto
      refine .command hdata hget hs ?_
      simp only [Bool.and_eq_true, bne_iff_ne, ne_eq, not_and, not_not] at hkind
      by_contra hne
      exact hauto (beq_iff_eq.mpr (hkind hne))
  · intro h
    cases h with
    | otherKind hc ha =>
      unfold prepareInteraction
      rw [if_pos (by simp [hc, ha])]
      exact ⟨_, rfl⟩
    | @otherCommand commandData hdata hother =>
      unfold prepareInteraction
      split
      · exact ⟨_, rfl⟩
      rw [hdata]
      dsimp only
      rw [if_pos (bne_iff_ne.mpr hother)]
      exact ⟨_, rfl⟩
    | unregistered hdata hnone =>
      unfold prepareInteraction
      split
      · exact ⟨_, rfl⟩
      rw [hdata]
      dsimp only
      split
      · exact ⟨_, rfl⟩
      rw [hnone]
      exact ⟨_, rfl⟩
    | command hdata hget hs hkind =>
      have hv := CommandRegistry.valid hget
      obtain ⟨descriptor, kind, hleaf, -⟩ := selects_validLeaf hv hs
      refine prepareInteraction_resolved hdata hget (selects_resolve hv hs) (fun hauto => ?_) (prepareCommand_leaf hleaf)
      rw [hkind] at hauto
      cases hauto
    | @autocomplete commandData command leaf levels scope index hdata hget hs hfocus hc =>
      have hv := CommandRegistry.valid hget
      obtain ⟨descriptor, kind, hleaf, hl⟩ := selects_validLeaf hv hs
      refine prepareInteraction_resolved hdata hget (selects_resolve hv hs) (fun _ => ?_) (prepareCommand_leaf hleaf)
      rw [hleaf] at hc
      obtain ⟨prepared, hp, -⟩ := @prepareAutocomplete_routed D interaction commandData
        ⟨leaf, command.descriptor.name :: levels.map (·.1), scope⟩ shardId descriptor kind hleaf hl index hfocus hc
      exact ⟨_, hp⟩

theorem prepareDispatch_iff (framework : Framework D) (event : GatewayEvent) (shardId : Option ShardId) :
    (∃ prepared, prepareDispatch framework event shardId = .ok prepared) ↔ Dispatchable framework event := by
  cases event with
  | other => exact ⟨fun _ => trivial, fun _ => ⟨_, rfl⟩⟩
  | dispatch dispatch =>
    by_cases hname : dispatch.name = "INTERACTION_CREATE"
    · obtain ⟨name, typed⟩ := dispatch
      obtain rfl : name = "INTERACTION_CREATE" := hname
      show _ ↔ ("INTERACTION_CREATE" = "INTERACTION_CREATE" → _)
      rw [forall_prop_of_true rfl]
      cases typed with
      | error error =>
        constructor
        · intro h
          obtain ⟨prepared, h⟩ := h
          cases h
        · intro h
          obtain ⟨typed, h, -⟩ := h
          cases h
      | ok typed =>
        cases typed with
        | ready => exact ⟨fun _ => ⟨_, rfl, fun _ h => (by cases h)⟩, fun _ => ⟨_, rfl⟩⟩
        | other => exact ⟨fun _ => ⟨_, rfl, fun _ h => (by cases h)⟩, fun _ => ⟨_, rfl⟩⟩
        | interactionCreate interaction =>
          refine (prepareInteraction_iff framework interaction shardId).trans ⟨fun h => ⟨_, rfl, fun _ he => ?_⟩, fun h => ?_⟩
          · cases he
            exact h
          · obtain ⟨typed, he, hd⟩ := h
            cases he
            exact hd interaction rfl
    · refine ⟨fun _ h => absurd h hname, fun _ => ⟨.ignored, ?_⟩⟩
      simp only [prepareDispatch, if_pos (bne_iff_ne.mpr hname)]

theorem readyApplicationId_iff (event : GatewayEvent) :
    (∃ applicationId, readyApplicationId event = .ok applicationId) ↔ ReadyDecodes event := by
  cases event with
  | other => exact ⟨fun _ => trivial, fun _ => ⟨_, rfl⟩⟩
  | dispatch dispatch =>
    by_cases hname : dispatch.name = "READY"
    · obtain ⟨name, typed⟩ := dispatch
      obtain rfl : name = "READY" := hname
      show _ ↔ ("READY" = "READY" → _)
      rw [forall_prop_of_true rfl]
      cases typed with
      | error error =>
        constructor
        · intro h
          obtain ⟨applicationId, h⟩ := h
          cases h
        · intro h
          obtain ⟨typed, h⟩ := h
          cases h
      | ok typed =>
        refine ⟨fun _ => ⟨_, rfl⟩, fun _ => ?_⟩
        cases typed <;> exact ⟨_, rfl⟩
    · refine ⟨fun _ h => absurd h hname, fun _ => ⟨none, ?_⟩⟩
      simp only [readyApplicationId, if_pos (bne_iff_ne.mpr hname)]

/-! ## The tasks of a loop -/

def Ending.joinError : Ending → Option JoinError
  | .completed _ => none
  | .panicked => some .panic
  | .aborted => some .cancelled

structure Tasks (D : Type) where
  permits : Permits
  /-- In spawn order; `none` once the task has ended. -/
  live : List (Option (Job D))
  /-- The results that have not been taken. -/
  ended : List Ending

/-- One task ends: its future is dropped, then there is a result. Both permits are back and
    the result is there in one step; `Permits` has them apart. -/
def Tasks.finish (tasks : Tasks D) (done : Nat × Ending) : Tasks D :=
  match tasks.live[done.1]? with
  | some (some job) =>
    ⟨dropGlobal (dropLeaf job tasks.permits), tasks.live.set done.1 none, tasks.ended ++ [done.2]⟩
  | _ => tasks

def Tasks.settle (tasks : Tasks D) (done : List (Nat × Ending)) : Tasks D := done.foldl Tasks.finish tasks

def Tasks.spawn (tasks : Tasks D) (job : Job D) (permits : Permits) : Tasks D :=
  ⟨permits, tasks.live ++ [some job], tasks.ended⟩

def Tasks.reaped (tasks : Tasks D) : Tasks D := { tasks with ended := [] }

/-- `try_join_next` until there is no more, or an error. -/
def reapCompletedCommands : List Ending → Except Error Unit
  | [] => .ok ()
  | ending :: rest =>
    match ending.joinError with
    | none => reapCompletedCommands rest
    | some cause => .error (.commandTask cause)

/-! ## The loops -/

structure Arrival where
  /-- What ends before the event is there. -/
  before : List (Nat × Ending)
  event : Except Error ShardEvent
  /-- What ends while the event is handled. -/
  during : List (Nat × Ending)

structure Loop (D : Type) where
  tasks : Tasks D
  synchronized : Bool
  log : List (Except Error DispatchOutcome)

def Loop.start (framework : Framework D) : Loop D where
  tasks := ⟨(World.start framework false fun _ => false).permits, [], []⟩
  synchronized := framework.registration == .none
  log := []

def Loop.decide (loop : Loop D) (outcome : Except Error DispatchOutcome) (tasks : Tasks D) : Loop D :=
  ⟨tasks, loop.synchronized, loop.log ++ [outcome]⟩

/-- `if let Some(future) = command.try_execute()? { commands.spawn(future); }` -/
def executeJob (loop : Loop D) (tasks : Tasks D) (job : Job D) : Except Error (Loop D) :=
  match tryExecute job tasks.permits with
  | (.error .closed, _) => .error .commandSchedulerClosed
  | (.error .noPermits, permits) => .ok (loop.decide (.ok (.atCapacity job.commandName)) { tasks with permits := permits })
  | (.ok (), permits) => .ok (loop.decide (.ok (.spawned job.commandName)) (tasks.spawn job permits))

/-- The `match` on what was prepared. -/
def handlePrepared (loop : Loop D) (tasks : Tasks D) : PreparedDispatch D → Except Error (Loop D)
  | .command command => executeJob loop tasks (.command command)
  | .autocomplete autocomplete => executeJob loop tasks (.autocomplete autocomplete)
  | .ignored => .ok (loop.decide (.ok .ignored) tasks)
  | .unregistered name => .ok (loop.decide (.ok (.unregistered name)) tasks)

def synchronizeOnReady (synchronize : ApplicationId → Except Error Unit) (synchronized : Bool) (event : GatewayEvent) :
    Except Error Bool :=
  if synchronized then .ok true
  else
    match readyApplicationId event with
    | .error error => .error error
    | .ok none => .ok false
    | .ok (some applicationId) =>
      match synchronize applicationId with
      | .error error => .error error
      | .ok () => .ok true

/-- The body of the loop in `drive_shards`. -/
def driveEvent (framework : Framework D) (synchronize : ApplicationId → Except Error Unit) (loop : Loop D)
    (arrival : Arrival) : Except Error (Loop D) :=
  let tasks := loop.tasks.settle arrival.before
  match reapCompletedCommands tasks.ended with
  | .error error => .error error
  | .ok () =>
    match arrival.event with
    | .error error => .error error
    | .ok event =>
      match synchronizeOnReady synchronize loop.synchronized event.event with
      | .error error => .error error
      | .ok synchronized =>
        match prepareDispatch framework event.event (some event.shardId) with
        | .error error => .error error
        | .ok prepared =>
          handlePrepared { loop with synchronized := synchronized }
            (tasks.reaped.settle arrival.during) prepared

/-- How `drive_shards` returns: out of the loop, or after it. -/
inductive Exit where
  | early (error : Error)
  | streamEnd (result : Except Error Unit)

/-- `drive_shards`: its return, and where the loop stood. After the last event the tasks in
    `last` end. What is live when it returns is aborted. -/
def driveShards (framework : Framework D) (synchronize : ApplicationId → Except Error Unit)
    (last : List (Nat × Ending)) (loop : Loop D) : List Arrival → Exit × Loop D
  | [] => (.streamEnd (reapCompletedCommands (loop.tasks.settle last).ended), loop)
  | arrival :: rest =>
    match driveEvent framework synchronize loop arrival with
    | .error error => (.early error, loop)
    | .ok loop => driveShards framework synchronize last loop rest

def dispatchShard (framework : Framework D) (event : ShardEvent) (tasks : Tasks D) :
    Except Error DispatchOutcome × Tasks D :=
  match dispatch framework event.event (some event.shardId) true tasks.permits,
    jobOf (prepareDispatch framework event.event (some event.shardId)) with
  | (.ok (.spawned name), permits), .ok job => (.ok (.spawned name), tasks.spawn job permits)
  | (outcome, permits), _ => (outcome, { tasks with permits := permits })

def isReady (event : GatewayEvent) : Bool :=
  match readyApplicationId event with
  | .ok (some _) => true
  | _ => false

/-- A loop that calls `dispatch_shard` on each event and goes on whatever it returns. It
    synchronizes on the first READY it can read, and takes no results. -/
def manualEvent (framework : Framework D) (loop : Loop D) (arrival : Arrival) : Loop D :=
  let tasks := (loop.tasks.settle arrival.before).settle arrival.during
  match arrival.event with
  | .error _ => { loop with tasks := tasks }
  | .ok event =>
    let (outcome, tasks) := dispatchShard framework event tasks
    { tasks := tasks, synchronized := loop.synchronized || isReady event.event, log := loop.log ++ [outcome] }

/-- The managed loop gets to the end of the stream, and has done what the manual one does. -/
def Survives (framework : Framework D) (synchronize : ApplicationId → Except Error Unit) (arrivals : List Arrival)
    (last : List (Nat × Ending)) : Prop :=
  (∃ result, (driveShards framework synchronize last (Loop.start framework) arrivals).1 = .streamEnd result) ∧
    (driveShards framework synchronize last (Loop.start framework) arrivals).2.log =
      (arrivals.foldl (manualEvent framework) (Loop.start framework)).log

/-- What the manual loop meets in its next turn would not stop the managed one. -/
def Tolerated (framework : Framework D) (loop : Loop D) (arrival : Arrival) : Prop :=
  (∀ ending ∈ (loop.tasks.settle arrival.before).ended, ending.joinError = none) ∧
    ∀ event, arrival.event = .ok event →
      Dispatchable framework event.event ∧ (loop.synchronized = false → ReadyDecodes event.event)

/-! ## Nothing is closed -/

def Permits.Open (permits : Permits) : Prop :=
  permits.global.closed = false ∧ ∀ path, (permits.leaf path).closed = false

theorem open_update {permits : Permits} (h : permits.Open) (path : List String) {slots : Semaphore}
    (hs : slots.closed = (permits.leaf path).closed) :
    Permits.Open { permits with leaf := Function.update permits.leaf path slots } := by
  refine ⟨h.1, fun other => ?_⟩
  by_cases ho : other = path
  · subst ho
    show (Function.update permits.leaf other slots other).closed = false
    rw [Function.update_self, hs]
    exact h.2 other
  · show (Function.update permits.leaf path slots other).closed = false
    rw [Function.update_of_ne ho]
    exact h.2 other

theorem takeLeaf_open {job : Job D} {permits : Permits} (h : permits.Open) :
    (∀ next, takeLeaf job permits = .ok next → next.Open) ∧
      ∀ error, takeLeaf job permits = .error error → error = .noPermits := by
  refine ⟨fun next ht => ?_, fun error ht => ?_⟩
  · rcases takeLeaf_ok ht with ⟨-, rfl⟩ | ⟨path, -, -, rfl⟩
    · exact h
    · exact open_update h path rfl
  · unfold takeLeaf at ht
    split at ht
    · cases ht
    · rename_i path hs
      split at ht
      · rename_i ha
        cases ht
        exact tryAcquire_open (h.2 path) ha
      · cases ht

theorem takeGlobal_open {permits : Permits} (h : permits.Open) :
    (∀ next, takeGlobal permits = .ok next → next.Open) ∧
      ∀ error, takeGlobal permits = .error error → error = .noPermits := by
  refine ⟨fun next ht => ?_, fun error ht => ?_⟩
  · obtain ⟨-, rfl⟩ := takeGlobal_ok ht
    exact h
  · unfold takeGlobal at ht
    split at ht
    · rename_i ha
      cases ht
      exact tryAcquire_open h.1 ha
    · cases ht

theorem tryExecute_open {job : Job D} {permits : Permits} (h : permits.Open) :
    (tryExecute job permits).2.Open ∧ (tryExecute job permits).1 ≠ .error .closed := by
  rcases tryExecute_cases job permits with ⟨error, hl, ht⟩ | ⟨withLeaf, error, hl, hg, ht⟩ |
    ⟨withLeaf, withBoth, hl, hg, ht⟩
  · rw [ht, (takeLeaf_open h).2 error hl]
    exact ⟨h, by simp⟩
  · have hopen := (takeLeaf_open h).1 withLeaf hl
    rw [ht, (takeGlobal_open hopen).2 error hg]
    exact ⟨h, by simp⟩
  · have hopen := (takeLeaf_open h).1 withLeaf hl
    rw [ht]
    exact ⟨(takeGlobal_open hopen).1 withBoth hg, by simp⟩

theorem finish_open {tasks : Tasks D} (h : tasks.permits.Open) (done : Nat × Ending) :
    (tasks.finish done).permits.Open := by
  unfold Tasks.finish
  split
  · rename_i job hl
    show (dropLeaf job tasks.permits).global.closed = false ∧ ∀ path, ((dropLeaf job tasks.permits).leaf path).closed = false
    cases hs : job.leafSlot with
    | none =>
      rw [dropLeaf_none hs]
      exact h
    | some path =>
      rw [dropLeaf_some hs]
      exact open_update h path rfl
  · exact h

theorem settle_open {tasks : Tasks D} (h : tasks.permits.Open) (done : List (Nat × Ending)) :
    (tasks.settle done).permits.Open := by
  induction done generalizing tasks with
  | nil => exact h
  | cons d rest ih => exact ih (finish_open h d)

/-! ## One loop tracks the other -/

/-- `tasks` with results in front that the other loop has already taken. -/
def Tasks.owing (tasks : Tasks D) (taken : List Ending) : Tasks D :=
  { tasks with ended := taken ++ tasks.ended }

theorem reaped_owing (tasks : Tasks D) (taken : List Ending) :
    tasks.owing taken = tasks.reaped.owing (taken ++ tasks.ended) := by
  unfold Tasks.owing Tasks.reaped
  rw [List.append_nil]

theorem finish_owing (tasks : Tasks D) (taken : List Ending) (done : Nat × Ending) :
    (tasks.owing taken).finish done = (tasks.finish done).owing taken := by
  show (match tasks.live[done.1]? with | some (some job) => _ | _ => _) = _
  unfold Tasks.finish
  split
  · unfold Tasks.owing
    simp only [List.append_assoc]
  · rfl

theorem settle_owing (tasks : Tasks D) (taken : List Ending) (done : List (Nat × Ending)) :
    (tasks.owing taken).settle done = (tasks.settle done).owing taken := by
  induction done generalizing tasks with
  | nil => rfl
  | cons d rest ih =>
    show ((tasks.owing taken).finish d).settle rest = ((tasks.finish d).settle rest).owing taken
    rw [finish_owing]
    exact ih (tasks.finish d)

theorem dispatchShard_owing (framework : Framework D) (event : ShardEvent) (tasks : Tasks D) (taken : List Ending) :
    dispatchShard framework event (tasks.owing taken) =
      ((dispatchShard framework event tasks).1, (dispatchShard framework event tasks).2.owing taken) := by
  have hpermits : (tasks.owing taken).permits = tasks.permits := rfl
  unfold dispatchShard
  rw [hpermits]
  rcases dispatch framework event.event (some event.shardId) true tasks.permits with ⟨outcome, permits⟩
  rcases jobOf (prepareDispatch framework event.event (some event.shardId)) with error | job
  all_goals
    rcases outcome with error | outcome
    · rfl
    · cases outcome <;> rfl

theorem reap_iff (ended : List Ending) :
    reapCompletedCommands ended = .ok () ↔ ∀ ending ∈ ended, ending.joinError = none := by
  induction ended with
  | nil => simp [reapCompletedCommands]
  | cons ending rest ih =>
    unfold reapCompletedCommands
    rw [List.forall_mem_cons]
    cases ending.joinError with
    | none => simp [ih]
    | some cause => simp

/-- The managed loop stands where the manual one does, with the results in `taken` taken. -/
structure Tracks (taken : List Ending) (s m : Loop D) : Prop where
  tasks : m.tasks = s.tasks.owing taken
  synchronized : m.synchronized = s.synchronized
  log : m.log = s.log
  completed : ∀ ending ∈ taken, ending.joinError = none
  isOpen : s.tasks.permits.Open

theorem tracks_start (framework : Framework D) : Tracks [] (Loop.start framework) (Loop.start framework) :=
  ⟨rfl, rfl, rfl, fun _ h => (by cases h), rfl, fun _ => rfl⟩

/-- `drive_shards` executes what it prepared as `dispatch_shard` does. -/
theorem executeJob_dispatch {framework : Framework D} {event : ShardEvent} {tasks : Tasks D} {job : Job D}
    (loop : Loop D) (ho : tasks.permits.Open)
    (hj : jobOf (prepareDispatch framework event.event (some event.shardId)) = .ok job) :
    executeJob loop tasks job =
      .ok (loop.decide (dispatchShard framework event tasks).1 (dispatchShard framework event tasks).2) := by
  have hclosed := (@tryExecute_open D job tasks.permits ho).2
  unfold executeJob dispatchShard dispatch
  rw [hj]
  cases ht : tryExecute job tasks.permits with
  | mk result permits =>
    rw [ht] at hclosed
    cases result with
    | ok => simp only [if_true, ht]
    | error error =>
      cases error with
      | closed => exact absurd rfl hclosed
      | noPermits => simp only [if_true, ht]; rfl

theorem handlePrepared_dispatch {framework : Framework D} {event : ShardEvent} {tasks : Tasks D}
    {prepared : PreparedDispatch D} (loop : Loop D) (ho : tasks.permits.Open)
    (hp : prepareDispatch framework event.event (some event.shardId) = .ok prepared) :
    handlePrepared loop tasks prepared =
      .ok (loop.decide (dispatchShard framework event tasks).1 (dispatchShard framework event tasks).2) := by
  cases prepared with
  | command command => exact executeJob_dispatch loop ho (by rw [hp]; rfl)
  | autocomplete autocomplete => exact executeJob_dispatch loop ho (by rw [hp]; rfl)
  | ignored =>
    unfold dispatchShard dispatch
    rw [hp]
    rfl
  | unregistered name =>
    unfold dispatchShard dispatch
    rw [hp]
    rfl

theorem dispatchShard_open {framework : Framework D} {event : ShardEvent} {tasks : Tasks D} (ho : tasks.permits.Open) :
    (dispatchShard framework event tasks).2.permits.Open := by
  have hd : (dispatch framework event.event (some event.shardId) true tasks.permits).2.Open := by
    unfold dispatch
    split
    · exact ho
    · rename_i job hj
      have := (@tryExecute_open D job tasks.permits ho).1
      rw [if_pos rfl]
      split <;> (rename_i ht; rw [ht] at this; exact this)
  have hpermits : (dispatchShard framework event tasks).2.permits =
      (dispatch framework event.event (some event.shardId) true tasks.permits).2 := by
    unfold dispatchShard
    split
    · rename_i h _
      rw [h]
      rfl
    · rename_i h _
      rw [h]
  rw [hpermits]
  exact hd

theorem synchronizeOnReady_ok {synchronize : ApplicationId → Except Error Unit} (hsync : ∀ id, synchronize id = .ok ())
    (synchronized : Bool) {event : GatewayEvent} (h : synchronized = false → ReadyDecodes event) :
    synchronizeOnReady synchronize synchronized event = .ok (synchronized || isReady event) := by
  unfold synchronizeOnReady isReady
  cases synchronized with
  | true => rfl
  | false =>
    obtain ⟨applicationId, hr⟩ := (readyApplicationId_iff event).mpr (h rfl)
    rw [hr]
    cases applicationId with
    | none => rfl
    | some id =>
      simp only [hsync]
      rfl

/-- A turn the manual loop can take without harm is taken by the managed one too. -/
theorem driveEvent_tracks {framework : Framework D} {synchronize : ApplicationId → Except Error Unit}
    (hsync : ∀ id, synchronize id = .ok ()) {taken : List Ending} {s m : Loop D} (ht : Tracks taken s m)
    {arrival : Arrival} {event : ShardEvent} (he : arrival.event = .ok event) (h : Tolerated framework m arrival) :
    ∃ taken' s', driveEvent framework synchronize s arrival = .ok s' ∧
      Tracks taken' s' (manualEvent framework m arrival) := by
  have hbefore : m.tasks.settle arrival.before = (s.tasks.settle arrival.before).owing taken := by
    rw [ht.tasks, settle_owing]
  have hcompleted : ∀ ending ∈ taken ++ (s.tasks.settle arrival.before).ended, ending.joinError = none := by
    have := h.1
    rwa [hbefore] at this
  have hreap : reapCompletedCommands (s.tasks.settle arrival.before).ended = .ok () :=
    (reap_iff _).mpr fun ending hm => hcompleted ending (List.mem_append_right _ hm)
  obtain ⟨hd, hready⟩ := h.2 event he
  have hs := synchronizeOnReady_ok hsync s.synchronized (fun hn => hready (by rw [ht.synchronized, hn]))
  obtain ⟨prepared, hp⟩ := (prepareDispatch_iff framework event.event (some event.shardId)).mpr hd
  -- the reap moves the results of the turn to the taken ones
  let tasks : Tasks D := (s.tasks.settle arrival.before).reaped.settle arrival.during
  have ho : tasks.permits.Open := @settle_open D (s.tasks.settle arrival.before).reaped
    (settle_open ht.isOpen arrival.before) arrival.during
  have hduring : (m.tasks.settle arrival.before).settle arrival.during =
      tasks.owing (taken ++ (s.tasks.settle arrival.before).ended) := by
    rw [hbefore, reaped_owing, settle_owing]
  have hdrive : driveEvent framework synchronize s arrival =
      .ok (Loop.decide { s with synchronized := s.synchronized || isReady event.event }
        (dispatchShard framework event tasks).1 (dispatchShard framework event tasks).2) := by
    unfold driveEvent
    simp only [hreap, he, hs, hp]
    exact handlePrepared_dispatch _ ho hp
  refine ⟨taken ++ (s.tasks.settle arrival.before).ended, _, hdrive, ?_⟩
  unfold manualEvent
  simp only [he, hduring, dispatchShard_owing]
  exact ⟨rfl, by rw [ht.synchronized]; rfl, by rw [ht.log]; rfl, hcompleted, dispatchShard_open ho⟩

/-- A turn the managed loop takes was harmless. -/
theorem driveEvent_tolerated {framework : Framework D} {synchronize : ApplicationId → Except Error Unit}
    {taken : List Ending} {s s' m : Loop D} (ht : Tracks taken s m) {arrival : Arrival}
    (h : driveEvent framework synchronize s arrival = .ok s') : Tolerated framework m arrival := by
  unfold driveEvent at h
  dsimp only at h
  split at h
  · cases h
  rename_i hreap
  split at h
  · cases h
  rename_i event he
  split at h
  · cases h
  rename_i hs
  split at h
  · cases h
  rename_i prepared hp
  refine ⟨?_, fun event' he' => ?_⟩
  · rw [ht.tasks, settle_owing]
    intro ending hm
    rcases List.mem_append.mp hm with hm | hm
    · exact ht.completed ending hm
    · exact (reap_iff _).mp hreap ending hm
  · rw [he] at he'
    cases he'
    refine ⟨(prepareDispatch_iff framework event.event (some event.shardId)).mp ⟨prepared, hp⟩, fun hn => ?_⟩
    rw [ht.synchronized] at hn
    unfold synchronizeOnReady at hs
    rw [hn] at hs
    simp only [Bool.false_eq_true, if_false] at hs
    split at hs
    · cases hs
    · rename_i hr
      exact (readyApplicationId_iff event.event).mp ⟨_, hr⟩
    · rename_i hr
      exact (readyApplicationId_iff event.event).mp ⟨_, hr⟩

/-! ## What the managed loop survives -/

/-- From where the loops stand, the managed one gets through what is left exactly if the
    manual one meets nothing harmful in it. -/
theorem drive_survives {framework : Framework D} {synchronize : ApplicationId → Except Error Unit}
    (hsync : ∀ id, synchronize id = .ok ()) (last : List (Nat × Ending)) {arrivals : List Arrival}
    (hok : ∀ arrival ∈ arrivals, ∃ event, arrival.event = .ok event) :
    ∀ {taken : List Ending} {s m : Loop D}, Tracks taken s m →
      (((∃ result, (driveShards framework synchronize last s arrivals).1 = .streamEnd result) ∧
          (driveShards framework synchronize last s arrivals).2.log = (arrivals.foldl (manualEvent framework) m).log) ↔
        Along (fun loop arrival => some (manualEvent framework loop arrival)) (Tolerated framework) m arrivals) := by
  induction arrivals with
  | nil =>
    intro taken s m ht
    exact ⟨fun _ => trivial, fun _ => ⟨⟨_, rfl⟩, ht.log.symm⟩⟩
  | cons arrival rest ih =>
    intro taken s m ht
    obtain ⟨event, he⟩ := hok arrival (List.mem_cons_self ..)
    have hrest : ∀ a ∈ rest, ∃ event, a.event = .ok event := fun a ha => hok a (List.mem_cons_of_mem _ ha)
    by_cases htol : Tolerated framework m arrival
    · obtain ⟨taken', s', hd, ht'⟩ := driveEvent_tracks hsync ht he htol
      have hs : driveShards framework synchronize last s (arrival :: rest) =
          driveShards framework synchronize last s' rest := by
        rw [driveShards, hd]
      rw [hs, List.foldl_cons]
      refine ⟨fun h => ⟨htol, fun m' hm => ?_⟩, fun h => (ih hrest ht').mpr (h.2 _ rfl)⟩
      obtain rfl := Option.some.inj hm
      exact (ih hrest ht').mp h
    · cases hd : driveEvent framework synchronize s arrival with
      | ok s' => exact absurd (driveEvent_tolerated ht hd) htol
      | error error =>
        have hs : driveShards framework synchronize last s (arrival :: rest) = (.early error, s) := by
          rw [driveShards, hd]
        rw [hs]
        refine ⟨fun ⟨⟨_, h⟩, _⟩ => (by cases h), fun h => absurd h.1 htol⟩

/-- On a stream that delivers events, the managed loop gets to its end with every event
    decided like in the manual loop, exactly if in every turn of the manual loop no task
    that has ended by then panicked, the event can be dispatched, and a READY that should
    synchronize decodes. -/
theorem drive_survives_iff (framework : Framework D) (synchronize : ApplicationId → Except Error Unit)
    (hsync : ∀ id, synchronize id = .ok ()) (arrivals : List Arrival)
    (hok : ∀ arrival ∈ arrivals, ∃ event, arrival.event = .ok event) (last : List (Nat × Ending)) :
    Survives framework synchronize arrivals last ↔
      Along (fun loop arrival => some (manualEvent framework loop arrival)) (Tolerated framework)
        (Loop.start framework) arrivals :=
  drive_survives hsync last hok (tracks_start framework)

theorem drive_survives_iff_ban :
    let ban : SlashCommand Unit := .leaf ⟨"ban", "Ban a member", []⟩ { handler := fun _ data => (.ok (), data) }
    let admin : SlashCommand Unit := .group ⟨"admin", "Administration commands", []⟩ [ban]
    let commandData : ApplicationCommandInteractionData := ⟨"admin", .chatInput, [⟨"ban", .subCommand, none, [], none⟩]⟩
    let interaction : Interaction := ⟨1, 2, .applicationCommand, "token", none, none, none, none, .ok (some commandData)⟩
    let arrivals : List Arrival := [⟨[], .ok ⟨0, interactionEvent interaction⟩, []⟩]
    ∃ framework : Framework Unit, framework.registry.get "admin" = some admin ∧
      Survives framework (fun _ => .ok ()) arrivals [(0, .panicked)] := by
  intro ban admin commandData interaction arrivals
  obtain ⟨framework, hget⟩ := exists_framework admin rfl
  refine ⟨framework, hget, ?_⟩
  refine (drive_survives_iff framework (fun _ => .ok ()) (fun _ => rfl) arrivals ?_ [(0, .panicked)]).mpr
    ⟨⟨fun ending h => (by cases h), fun event he => ?_⟩, fun _ _ => trivial⟩
  · intro arrival h
    rw [List.mem_singleton.mp h]
    exact ⟨_, rfl⟩
  · cases he
    refine ⟨fun _ => ⟨_, rfl, fun _ hi => ?_⟩, fun _ hn => absurd hn (by decide)⟩
    cases hi
    have hs : Selects admin [⟨"ban", .subCommand, none, [], none⟩] [("ban", .subCommand)] ban [] :=
      .sub (List.mem_singleton_self _) rfl rfl rfl
    exact .command rfl hget hs rfl

/-- A subcommand that nobody registered ends the managed loop; the next interaction, which
    the manual loop spawns, is never read. -/
theorem drive_stops_at_stale_path :
    let ban : SlashCommand Unit := .leaf ⟨"ban", "Ban a member", []⟩ { handler := fun _ data => (.ok (), data) }
    let admin : SlashCommand Unit := .group ⟨"admin", "Administration commands", []⟩ [ban]
    let interaction := fun name : String => (⟨1, 2, .applicationCommand, "token", none, none, none, none,
      .ok (some ⟨"admin", .chatInput, [⟨name, .subCommand, none, [], none⟩]⟩)⟩ : Interaction)
    let arrivals : List Arrival :=
      [⟨[], .ok ⟨0, interactionEvent (interaction "kick")⟩, []⟩, ⟨[], .ok ⟨0, interactionEvent (interaction "ban")⟩, []⟩]
    ∃ framework : Framework Unit, framework.registry.get "admin" = some admin ∧
      (driveShards framework (fun _ => .ok ()) [] (Loop.start framework) arrivals).1 =
        .early (.unknownCommandPath "admin kick") ∧
      (arrivals.foldl (manualEvent framework) (Loop.start framework)).log =
        [.error (.unknownCommandPath "admin kick"), .ok (.spawned "ban")] ∧
      ¬ Survives framework (fun _ => .ok ()) arrivals [] := by
  intro ban admin interaction arrivals
  obtain ⟨framework, hget⟩ := exists_framework admin rfl
  have hkick : prepareDispatch framework (interactionEvent (interaction "kick")) (some 0) =
      .error (.unknownCommandPath "admin kick") := by
    rw [@prepareDispatch_registered Unit framework (interaction "kick") (some 0) _ admin (.inl rfl) rfl rfl hget]
    rfl
  have hban : ∃ prepared, jobOf (prepareDispatch framework (interactionEvent (interaction "ban")) (some 0)) =
      .ok (.command prepared) ∧ prepared.commandName = "ban" ∧ prepared.policy.commandSlots = none := by
    rw [@prepareDispatch_registered Unit framework (interaction "ban") (some 0) _ admin (.inl rfl) rfl rfl hget]
    exact ⟨_, rfl, rfl, rfl⟩
  have hstop : driveShards framework (fun _ => .ok ()) [] (Loop.start framework) arrivals =
      (.early (.unknownCommandPath "admin kick"), Loop.start framework) := by
    have hready := @synchronizeOnReady_ok (fun _ => .ok ()) (fun _ => rfl) (Loop.start framework).synchronized
      (interactionEvent (interaction "kick")) (fun _ hn => absurd hn (by decide))
    have hturn : driveEvent framework (fun _ => .ok ()) (Loop.start framework)
        ⟨[], .ok ⟨0, interactionEvent (interaction "kick")⟩, []⟩ = .error (.unknownCommandPath "admin kick") := by
      unfold driveEvent
      simp only [hready, hkick]
      rfl
    rw [driveShards, hturn]
  refine ⟨framework, hget, by rw [hstop], ?_, fun h => ?_⟩
  · obtain ⟨prepared, hj, hname, hslots⟩ := hban
    have hslot : Job.leafSlot (.command prepared) = none := by simp only [Job.leafSlot, hslots, Option.map_none]
    have hfree : framework.maxConcurrentCommands ≠ 0 := framework.limited
    have hfirst : manualEvent framework (Loop.start framework)
        ⟨[], .ok ⟨0, interactionEvent (interaction "kick")⟩, []⟩ =
          ⟨(Loop.start framework).tasks, (Loop.start framework).synchronized || false,
            [.error (.unknownCommandPath "admin kick")]⟩ := by
      simp only [manualEvent, dispatchShard, dispatch, hkick, jobOf]
      rfl
    have hsecond : (dispatchShard framework ⟨0, interactionEvent (interaction "ban")⟩ (Loop.start framework).tasks).1 =
        .ok (.spawned "ban") := by
      simp [dispatchShard, dispatch, hj, tryExecute, takeLeaf, takeGlobal, hslot, Semaphore.tryAcquire, Loop.start,
        World.start, hfree, Job.commandName, hname]
    simp only [arrivals, List.foldl_cons, List.foldl_nil]
    rw [hfirst, ← hsecond]
    rfl
  · obtain ⟨⟨_, h⟩, _⟩ := h
    rw [hstop] at h
    cases h

end GloamCommands.Dispatch
