/-
  GloamCommands.Dispatch.Synchronize — what the managed loop sends and spawns
  (`drive_shards`, `synchronize_commands` in crates/gloam-commands/src/framework.rs,
  `Registration::synchronize` in crates/gloam-commands/src/registration.rs).

  The loop of `Dispatch.Drive` again, now noting each bulk overwrite with its outcome and
  each task it spawns, with the turn it happened in. `rest` says what a request comes to
  in a turn. What is noted changes nothing (`driveShardsLogged_fst`).

  Each shard delivers its READY before its interactions (`ShardsReady`); how the shards
  interleave, reconnect or fail is left open.
  - `turn_history`: what one turn adds to what has happened.
  - `synchronized_once`: one overwrite at most, on the first READY, for the configured
    target, and nothing spawned before it has succeeded.
-/

import GloamCommands.Dispatch.Drive

namespace GloamCommands.Dispatch

open Lib (Preceded)

variable {D : Type}

/-! ## Noting what the loop does -/

structure BulkOverwrite where
  applicationId : ApplicationId
  guildId : Option GuildId
  commands : List CreateApplicationCommand

inductive Occurrence (D : Type) where
  | request (request : BulkOverwrite) (outcome : Except Error Unit)
  | spawned (job : Job D)

namespace Occurrence

def isRequest : Occurrence D → Bool
  | request _ _ => true
  | spawned _ => false

def isSpawn : Occurrence D → Bool
  | request _ _ => false
  | spawned _ => true

def isSuccess : Occurrence D → Bool
  | request _ (.ok ()) => true
  | _ => false

end Occurrence

/-- `Registration::synchronize`, with the request it sends. -/
def synchronizeCommands (framework : Framework D) (rest : BulkOverwrite → Except Error Unit)
    (applicationId : ApplicationId) : Except Error Unit × List (Occurrence D) :=
  let commands := createCommands framework.registry
  match framework.registration with
  | .global =>
    let request := ⟨applicationId, none, commands⟩
    (rest request, [.request request (rest request)])
  | .guild guildId =>
    let request := ⟨applicationId, some guildId, commands⟩
    (rest request, [.request request (rest request)])
  | .none => (.ok (), [])

def synchronizeOnReadyLogged (framework : Framework D) (rest : BulkOverwrite → Except Error Unit) (synchronized : Bool)
    (event : GatewayEvent) : Except Error Bool × List (Occurrence D) :=
  if synchronized then (.ok true, [])
  else
    match readyApplicationId event with
    | .error error => (.error error, [])
    | .ok none => (.ok false, [])
    | .ok (some applicationId) =>
      match synchronizeCommands framework rest applicationId with
      | (.error error, sent) => (.error error, sent)
      | (.ok (), sent) => (.ok true, sent)

def executeJobLogged (loop : Loop D) (tasks : Tasks D) (job : Job D) : Except Error (Loop D) × List (Occurrence D) :=
  match tryExecute job tasks.permits with
  | (.error .closed, _) => (.error .commandSchedulerClosed, [])
  | (.error .noPermits, permits) =>
    (.ok (loop.decide (.ok (.atCapacity job.commandName)) { tasks with permits := permits }), [])
  | (.ok (), permits) => (.ok (loop.decide (.ok (.spawned job.commandName)) (tasks.spawn job permits)), [.spawned job])

def handlePreparedLogged (loop : Loop D) (tasks : Tasks D) :
    PreparedDispatch D → Except Error (Loop D) × List (Occurrence D)
  | .command command => executeJobLogged loop tasks (.command command)
  | .autocomplete autocomplete => executeJobLogged loop tasks (.autocomplete autocomplete)
  | .ignored => (.ok (loop.decide (.ok .ignored) tasks), [])
  | .unregistered name => (.ok (loop.decide (.ok (.unregistered name)) tasks), [])

def dispatchLogged (framework : Framework D) (loop : Loop D) (tasks : Tasks D) (event : ShardEvent)
    (sent : List (Occurrence D)) : Except Error (Loop D) × List (Occurrence D) :=
  match prepareDispatch framework event.event (some event.shardId) with
  | .error error => (.error error, sent)
  | .ok prepared =>
    let (result, spawned) := handlePreparedLogged loop tasks prepared
    (result, sent ++ spawned)

def driveEventLogged (framework : Framework D) (rest : BulkOverwrite → Except Error Unit) (loop : Loop D)
    (arrival : Arrival) : Except Error (Loop D) × List (Occurrence D) :=
  let tasks := loop.tasks.settle arrival.before
  match reapCompletedCommands tasks.ended with
  | .error error => (.error error, [])
  | .ok () =>
    match arrival.event with
    | .error error => (.error error, [])
    | .ok event =>
      match synchronizeOnReadyLogged framework rest loop.synchronized event.event with
      | (.error error, sent) => (.error error, sent)
      | (.ok synchronized, sent) =>
        dispatchLogged framework { loop with synchronized := synchronized } (tasks.reaped.settle arrival.during) event sent

def atTurn (turn : Nat) (occurred : List (Occurrence D)) : List (Nat × Occurrence D) :=
  occurred.map fun occurrence => (turn, occurrence)

/-- `drive_shards` from a turn on, with what happens. -/
def driveShardsLogged (framework : Framework D) (rest : Nat → BulkOverwrite → Except Error Unit)
    (last : List (Nat × Ending)) (turn : Nat) (loop : Loop D) :
    List Arrival → (Exit × Loop D) × List (Nat × Occurrence D)
  | [] => ((.streamEnd (reapCompletedCommands (loop.tasks.settle last).ended), loop), [])
  | arrival :: arrivals =>
    match driveEventLogged framework (rest turn) loop arrival with
    | (.error error, occurred) => ((.early error, loop), atTurn turn occurred)
    | (.ok next, occurred) =>
      ((driveShardsLogged framework rest last (turn + 1) next arrivals).1,
        atTurn turn occurred ++ (driveShardsLogged framework rest last (turn + 1) next arrivals).2)

/-! ## Noting changes nothing -/

theorem synchronizeOnReadyLogged_fst (framework : Framework D) (rest : BulkOverwrite → Except Error Unit)
    (synchronized : Bool) (event : GatewayEvent) :
    (synchronizeOnReadyLogged framework rest synchronized event).1 =
      synchronizeOnReady (fun id => (synchronizeCommands framework rest id).1) synchronized event := by
  unfold synchronizeOnReadyLogged synchronizeOnReady
  by_cases hs : synchronized = true
  · simp [hs]
  rw [if_neg hs, if_neg hs]
  rcases readyApplicationId event with error | _ | id
  · rfl
  · rfl
  · dsimp only
    rcases synchronizeCommands framework rest id with ⟨error | ⟨⟩, sent⟩ <;> rfl

theorem executeJobLogged_fst (loop : Loop D) (tasks : Tasks D) (job : Job D) :
    (executeJobLogged loop tasks job).1 = executeJob loop tasks job := by
  unfold executeJobLogged executeJob
  rcases tryExecute job tasks.permits with ⟨error | ⟨⟩, permits⟩
  · cases error <;> rfl
  · rfl

theorem handlePreparedLogged_fst (loop : Loop D) (tasks : Tasks D) (prepared : PreparedDispatch D) :
    (handlePreparedLogged loop tasks prepared).1 = handlePrepared loop tasks prepared := by
  cases prepared with
  | command command => exact executeJobLogged_fst loop tasks _
  | autocomplete autocomplete => exact executeJobLogged_fst loop tasks _
  | ignored => rfl
  | unregistered name => rfl

theorem driveEventLogged_fst (framework : Framework D) (rest : BulkOverwrite → Except Error Unit) (loop : Loop D)
    (arrival : Arrival) :
    (driveEventLogged framework rest loop arrival).1 =
      driveEvent framework (fun id => (synchronizeCommands framework rest id).1) loop arrival := by
  unfold driveEventLogged driveEvent
  dsimp only
  rcases reapCompletedCommands (loop.tasks.settle arrival.before).ended with error | ⟨⟩
  · rfl
  rcases arrival.event with error | event
  · rfl
  dsimp only
  rw [← synchronizeOnReadyLogged_fst]
  rcases synchronizeOnReadyLogged framework rest loop.synchronized event.event with ⟨error | synchronized, sent⟩
  · rfl
  unfold dispatchLogged
  dsimp only
  rcases prepareDispatch framework event.event (some event.shardId) with error | prepared
  · rfl
  · exact handlePreparedLogged_fst _ _ prepared

/-- With requests whose outcome does not depend on the turn, the loop is `driveShards`. -/
theorem driveShardsLogged_fst (framework : Framework D) (rest : BulkOverwrite → Except Error Unit)
    (last : List (Nat × Ending)) (turn : Nat) (loop : Loop D) (arrivals : List Arrival) :
    (driveShardsLogged framework (fun _ => rest) last turn loop arrivals).1 =
      driveShards framework (fun id => (synchronizeCommands framework rest id).1) last loop arrivals := by
  induction arrivals generalizing turn loop with
  | nil => rfl
  | cons arrival arrivals ih =>
    unfold driveShardsLogged driveShards
    rw [← driveEventLogged_fst]
    rcases driveEventLogged framework rest loop arrival with ⟨error | next, occurred⟩
    · rfl
    · exact ih (turn + 1) next

/-! ## READY events -/

inductive IsReady : GatewayEvent → Prop
  | decoded (applicationId : ApplicationId) : IsReady (.dispatch ⟨"READY", .ok (.ready applicationId)⟩)
  | undecoded (error : Error) : IsReady (.dispatch ⟨"READY", .error error⟩)

def IsInteraction (event : GatewayEvent) : Prop :=
  ∃ dispatch, event = .dispatch dispatch ∧ dispatch.name = "INTERACTION_CREATE"

def Arrival.ready (arrival : Arrival) : Prop := ∃ event, arrival.event = .ok event ∧ IsReady event.event

/-- Each shard delivers a READY before its first interaction. -/
def ShardsReady (arrivals : List Arrival) : Prop :=
  ∀ before arrival after, arrivals = before ++ arrival :: after → ∀ event, arrival.event = .ok event →
    IsInteraction event.event →
      ∃ earlier ∈ before, ∃ ready, earlier.event = .ok ready ∧ ready.shardId = event.shardId ∧ IsReady ready.event

inductive Targets : Registration → Option GuildId → Prop
  | global : Targets .global none
  | guild (guildId : GuildId) : Targets (.guild guildId) (some guildId)

/-- `request` is the configured overwrite for the first READY of the run, in turn `turn`. -/
structure FirstReady (framework : Framework D) (arrivals : List Arrival) (turn : Nat) (request : BulkOverwrite) : Prop where
  first : ∃ before arrival after, arrivals = before ++ arrival :: after ∧ before.length = turn ∧
    (∀ earlier ∈ before, ¬ earlier.ready) ∧ ∃ shardId, arrival.event =
      .ok ⟨shardId, .dispatch ⟨"READY", .ok (.ready request.applicationId)⟩⟩
  target : Targets framework.registration request.guildId
  commands : request.commands = createCommands framework.registry

theorem FirstReady.append {framework : Framework D} {arrivals : List Arrival} {turn : Nat} {request : BulkOverwrite}
    (h : FirstReady framework arrivals turn request) (more : List Arrival) :
    FirstReady framework (arrivals ++ more) turn request := by
  obtain ⟨before, arrival, after, rfl, hturn, hnone, hready⟩ := h.first
  exact ⟨⟨before, arrival, after ++ more, by simp, hturn, hnone, hready⟩, h.target, h.commands⟩

theorem targets_registered {registration : Registration} {guildId : Option GuildId} (h : Targets registration guildId) :
    registration ≠ .none := by
  cases h <;> simp

/-! ## One turn -/

theorem readyApplicationId_some {event : GatewayEvent} {applicationId : ApplicationId}
    (h : readyApplicationId event = .ok (some applicationId)) :
    event = .dispatch ⟨"READY", .ok (.ready applicationId)⟩ := by
  rcases event with ⟨name, typed⟩ | _
  · by_cases hname : name = "READY"
    · subst hname
      rcases typed with error | ⟨id⟩ | interaction | _ <;> cases h
      rfl
    · simp [readyApplicationId, hname] at h
  · cases h

theorem readyApplicationId_none {event : GatewayEvent} (h : readyApplicationId event = .ok none) : ¬ IsReady event := by
  rintro (id | error) <;> cases h

/-- The synchronization of a turn: none is due, the event is no READY, or the one request. -/
theorem synchronizeOnReadyLogged_cases (framework : Framework D) (rest : BulkOverwrite → Except Error Unit)
    (synchronized : Bool) (event : GatewayEvent) :
    (synchronized = true ∧ synchronizeOnReadyLogged framework rest synchronized event = (.ok true, [])) ∨
    (synchronized = false ∧ ¬ IsReady event ∧
      synchronizeOnReadyLogged framework rest synchronized event = (.ok false, [])) ∨
    (∃ error, synchronizeOnReadyLogged framework rest synchronized event = (.error error, [])) ∨
    (synchronized = false ∧ framework.registration = .none) ∨
    (synchronized = false ∧ ∃ request, event = .dispatch ⟨"READY", .ok (.ready request.applicationId)⟩ ∧
      Targets framework.registration request.guildId ∧ request.commands = createCommands framework.registry ∧
      synchronizeOnReadyLogged framework rest synchronized event =
        ((rest request).map fun _ => true, [.request request (rest request)])) := by
  unfold synchronizeOnReadyLogged
  cases synchronized with
  | true => exact .inl ⟨rfl, rfl⟩
  | false =>
    rw [if_neg Bool.false_ne_true]
    rcases hready : readyApplicationId event with error | _ | id
    · exact .inr (.inr (.inl ⟨error, rfl⟩))
    · exact .inr (.inl ⟨rfl, readyApplicationId_none hready, rfl⟩)
    · refine .inr (.inr (.inr ?_))
      unfold synchronizeCommands
      rcases hreg : framework.registration with _ | guildId | _
      · refine .inr ⟨rfl, ⟨id, none, createCommands framework.registry⟩, readyApplicationId_some hready, .global, rfl, ?_⟩
        dsimp only
        rcases rest ⟨id, none, createCommands framework.registry⟩ with error | ⟨⟩ <;> rfl
      · refine .inr ⟨rfl, ⟨id, some guildId, createCommands framework.registry⟩, readyApplicationId_some hready,
          .guild guildId, rfl, ?_⟩
        dsimp only
        rcases rest ⟨id, some guildId, createCommands framework.registry⟩ with error | ⟨⟩ <;> rfl
      · exact .inl ⟨rfl, rfl⟩

theorem handlePreparedLogged_cases (loop : Loop D) (tasks : Tasks D) (prepared : PreparedDispatch D) :
    (∀ next, (handlePreparedLogged loop tasks prepared).1 = .ok next → next.synchronized = loop.synchronized) ∧
      ((handlePreparedLogged loop tasks prepared).2 = [] ∨
        ∃ job, jobOf (.ok prepared) = .ok job ∧ (handlePreparedLogged loop tasks prepared).2 = [.spawned job]) := by
  have hexecute : ∀ job : Job D,
      (∀ next, (executeJobLogged loop tasks job).1 = .ok next → next.synchronized = loop.synchronized) ∧
        ((executeJobLogged loop tasks job).2 = [] ∨ (executeJobLogged loop tasks job).2 = [.spawned job]) := by
    intro job
    unfold executeJobLogged
    rcases tryExecute job tasks.permits with ⟨error | ⟨⟩, permits⟩
    · cases error with
      | noPermits => exact ⟨fun next h => (by cases h; rfl), .inl rfl⟩
      | closed => exact ⟨fun next h => (by cases h), .inl rfl⟩
    · exact ⟨fun next h => (by cases h; rfl), .inr rfl⟩
  cases prepared with
  | ignored => exact ⟨fun next h => (by cases h; rfl), .inl rfl⟩
  | unregistered name => exact ⟨fun next h => (by cases h; rfl), .inl rfl⟩
  | command command =>
    obtain ⟨hnext, hspawn⟩ := hexecute (.command command)
    exact ⟨hnext, hspawn.imp_right fun h => ⟨_, rfl, h⟩⟩
  | autocomplete autocomplete =>
    obtain ⟨hnext, hspawn⟩ := hexecute (.autocomplete autocomplete)
    exact ⟨hnext, hspawn.imp_right fun h => ⟨_, rfl, h⟩⟩

theorem jobOf_interaction {framework : Framework D} {event : GatewayEvent} {shardId : Option ShardId}
    {prepared : PreparedDispatch D} {job : Job D} (hp : prepareDispatch framework event shardId = .ok prepared)
    (hj : jobOf (.ok prepared) = .ok job) : IsInteraction event := by
  rcases event with ⟨name, typed⟩ | _
  · by_cases hname : name = "INTERACTION_CREATE"
    · exact ⟨_, rfl, hname⟩
    · simp only [prepareDispatch, bne_iff_ne.mpr hname, if_true] at hp
      cases hp
      cases hj
  · cases hp
    cases hj

/-- What has happened once the turns of `past` are over, by the loop's flag. -/
inductive Happened (framework : Framework D) (past : List Arrival) : Bool → List (Nat × Occurrence D) → Prop
  | external {log : List (Nat × Occurrence D)} : framework.registration = .none →
      (∀ x ∈ log, x.2.isSpawn = true) → Happened framework past true log
  | waiting : framework.registration ≠ .none → (∀ arrival ∈ past, ¬ arrival.ready) → Happened framework past false []
  | synchronized {turn : Nat} {request : BulkOverwrite} {log : List (Nat × Occurrence D)} :
      FirstReady framework past turn request → (∀ x ∈ log, x.2.isSpawn = true) →
      Happened framework past true ((turn, .request request (.ok ())) :: log)

theorem happened_start (framework : Framework D) :
    Happened framework [] (Loop.start framework).synchronized [] := by
  by_cases h : framework.registration = .none
  · rw [show (Loop.start framework).synchronized = true from beq_iff_eq.mpr h]
    exact .external h fun x hx => (by cases hx)
  · rw [show (Loop.start framework).synchronized = false from beq_eq_false_iff_ne.mpr h]
    exact .waiting h fun arrival ha => (by cases ha)

theorem Happened.spawn {framework : Framework D} {past : List Arrival} {log : List (Nat × Occurrence D)}
    (h : Happened framework past true log) (arrival : Arrival) (turn : Nat) {spawned : List (Occurrence D)}
    (hspawned : ∀ x ∈ spawned, x.isSpawn = true) :
    Happened framework (past ++ [arrival]) true (log ++ atTurn turn spawned) := by
  have hnew : ∀ x ∈ atTurn turn spawned, x.2.isSpawn = true := by
    intro x hx
    obtain ⟨occurrence, ho, rfl⟩ := List.mem_map.mp hx
    exact hspawned occurrence ho
  cases h with
  | external hreg hlog =>
    refine .external hreg fun x hx => ?_
    exact (List.mem_append.mp hx).elim (hlog x) (hnew x)
  | synchronized hfirst hlog =>
    refine .synchronized (hfirst.append [arrival]) fun x hx => ?_
    exact (List.mem_append.mp hx).elim (hlog x) (hnew x)

/-- Preparing and handling an event adds at most a task to what was sent before, and only
    for an interaction. -/
theorem dispatchLogged_cases (framework : Framework D) (loop : Loop D) (tasks : Tasks D) (event : ShardEvent)
    (sent : List (Occurrence D)) :
    ∃ result spawned, dispatchLogged framework loop tasks event sent = (result, sent ++ spawned) ∧
      (∀ next, result = .ok next → next.synchronized = loop.synchronized) ∧
      (∀ x ∈ spawned, x.isSpawn = true) ∧ (spawned ≠ [] → IsInteraction event.event) := by
  unfold dispatchLogged
  rcases hp : prepareDispatch framework event.event (some event.shardId) with error | prepared
  · exact ⟨.error error, [], by simp, fun next h => (by cases h), fun x hx => (by cases hx), fun h => absurd rfl h⟩
  obtain ⟨hnext, hspawn | ⟨job, hj, hspawn⟩⟩ := handlePreparedLogged_cases loop tasks prepared
  · exact ⟨_, [], by simp only [hspawn], hnext, fun x hx => (by cases hx), fun h => absurd rfl h⟩
  · refine ⟨_, [.spawned job], by simp only [hspawn], hnext, fun x hx => ?_, fun _ => jobOf_interaction hp hj⟩
    rw [List.mem_singleton.mp hx]
    rfl

/-- What a turn adds: nothing, before an error; the failed request, as its error; or what
    the next turn starts from. -/
theorem turn_history {framework : Framework D} (rest : BulkOverwrite → Except Error Unit) {past : List Arrival}
    {loop : Loop D} {log : List (Nat × Occurrence D)} (h : Happened framework past loop.synchronized log)
    {arrival : Arrival} (hready : ShardsReady (past ++ [arrival])) :
    (∃ error, driveEventLogged framework rest loop arrival = (.error error, [])) ∨
    (∃ error request, driveEventLogged framework rest loop arrival = (.error error, [.request request (.error error)]) ∧
      log = [] ∧ FirstReady framework (past ++ [arrival]) past.length request) ∨
    ∃ synchronized,
      Happened framework (past ++ [arrival]) synchronized
        (log ++ atTurn past.length (driveEventLogged framework rest loop arrival).2) ∧
      ∀ next, (driveEventLogged framework rest loop arrival).1 = .ok next → next.synchronized = synchronized := by
  unfold driveEventLogged
  dsimp only
  rcases reapCompletedCommands (loop.tasks.settle arrival.before).ended with error | ⟨⟩
  · exact .inl ⟨error, rfl⟩
  rcases he : arrival.event with error | event
  · exact .inl ⟨error, rfl⟩
  dsimp only
  rcases synchronizeOnReadyLogged_cases framework rest loop.synchronized event.event with
    ⟨hflag, hs⟩ | ⟨hflag, hnot, hs⟩ | ⟨error, hs⟩ | ⟨hflag, hreg⟩ | ⟨hflag, request, hevent, htarget, hcommands, hs⟩
  · -- the flag is up: the turn may spawn
    rw [hs]
    rw [hflag] at h
    obtain ⟨result, spawned, hturn, hnext, hspawn, -⟩ := dispatchLogged_cases framework { loop with synchronized := true }
      ((loop.tasks.settle arrival.before).reaped.settle arrival.during) event []
    dsimp only
    rw [hturn]
    exact .inr (.inr ⟨true, h.spawn arrival past.length hspawn, hnext⟩)
  · -- no READY so far, so this is no interaction
    rw [hs]
    rw [hflag] at h
    obtain ⟨result, spawned, hturn, hnext, -, hinteraction⟩ := dispatchLogged_cases framework { loop with synchronized := false }
      ((loop.tasks.settle arrival.before).reaped.settle arrival.during) event []
    dsimp only
    rw [hturn]
    cases h with
    | waiting hreg hnone =>
      have hquiet : spawned = [] := by
        by_contra hne
        obtain ⟨earlier, hmem, ready, hre, -, hr⟩ :=
          hready past arrival [] rfl event he (hinteraction hne)
        exact hnone earlier hmem ⟨ready, hre, hr⟩
      subst hquiet
      refine .inr (.inr ⟨false, .waiting hreg fun a ha => ?_, hnext⟩)
      rcases List.mem_append.mp ha with ha | ha
      · exact hnone a ha
      · rw [List.mem_singleton.mp ha]
        rintro ⟨ready, hre, hr⟩
        rw [he] at hre
        cases hre
        exact hnot hr
  · rw [hs]
    exact .inl ⟨error, rfl⟩
  · rw [hflag] at h
    cases h with
    | waiting hne _ => exact absurd hreg hne
  · -- the first READY
    rw [hs]
    rw [hflag] at h
    obtain ⟨shardId, event⟩ := event
    obtain rfl : event = _ := hevent
    cases h with
    | waiting hreg hnone =>
      have hfirst : FirstReady framework (past ++ [arrival]) past.length request :=
        ⟨⟨past, arrival, [], rfl, rfl, hnone, shardId, he⟩, htarget, hcommands⟩
      rcases hrest : rest request with error | ⟨⟩
      · exact .inr (.inl ⟨error, request, rfl, rfl, hfirst⟩)
      · obtain ⟨result, spawned, hturn, hnext, hspawn, -⟩ := dispatchLogged_cases framework { loop with synchronized := true }
          ((loop.tasks.settle arrival.before).reaped.settle arrival.during)
          ⟨shardId, .dispatch ⟨"READY", .ok (.ready request.applicationId)⟩⟩ [.request request (.ok ())]
        dsimp only [Except.map]
        rw [hturn]
        refine .inr (.inr ⟨true, .synchronized hfirst fun x hx => ?_, hnext⟩)
        obtain ⟨occurrence, ho, rfl⟩ := List.mem_map.mp hx
        exact hspawn occurrence ho

/-! ## Whole runs -/

inductive Returned (framework : Framework D) (arrivals : List Arrival) : Exit → List (Nat × Occurrence D) → Prop
  | stopped {past left : List Arrival} {synchronized : Bool} {log : List (Nat × Occurrence D)} {error : Error} :
      arrivals = past ++ left → Happened framework past synchronized log → Returned framework arrivals (.early error) log
  | failed {turn : Nat} {request : BulkOverwrite} {error : Error} : FirstReady framework arrivals turn request →
      Returned framework arrivals (.early error) [(turn, .request request (.error error))]
  | ended {synchronized : Bool} {log : List (Nat × Occurrence D)} {result : Except Error Unit} :
      Happened framework arrivals synchronized log → Returned framework arrivals (.streamEnd result) log

theorem run_history {framework : Framework D} (rest : Nat → BulkOverwrite → Except Error Unit)
    (last : List (Nat × Ending)) {arrivals : List Arrival} :
    ∀ {past : List Arrival} {loop : Loop D} {log : List (Nat × Occurrence D)},
      Happened framework past loop.synchronized log → ShardsReady (past ++ arrivals) →
      Returned framework (past ++ arrivals) (driveShardsLogged framework rest last past.length loop arrivals).1.1
        (log ++ (driveShardsLogged framework rest last past.length loop arrivals).2) := by
  induction arrivals with
  | nil =>
    intro past loop log h _
    rw [List.append_nil]
    exact .ended (by simpa [driveShardsLogged] using h)
  | cons arrival arrivals ih =>
    intro past loop log h hready
    have hsofar : ShardsReady (past ++ [arrival]) := by
      intro before a after heq
      exact hready before a (after ++ arrivals) (by rw [← List.singleton_append, ← List.append_assoc, heq]; simp)
    have hsplit : past ++ arrival :: arrivals = (past ++ [arrival]) ++ arrivals := by simp
    rcases turn_history (rest past.length) h hsofar with
      ⟨error, hturn⟩ | ⟨error, request, hturn, rfl, hfirst⟩ | ⟨synchronized, hturn, hnext⟩
    · rw [driveShardsLogged, hturn]
      exact .stopped rfl (by simpa [atTurn] using h)
    · rw [driveShardsLogged, hturn, hsplit]
      exact .failed (hfirst.append arrivals)
    · rw [driveShardsLogged]
      rcases hd : driveEventLogged framework (rest past.length) loop arrival with ⟨error | next, occurred⟩
      · rw [hd] at hturn
        exact .stopped hsplit hturn
      · rw [hd] at hturn hnext
        rw [← hnext next rfl] at hturn
        have hrec := ih hturn (hsplit ▸ hready)
        rw [List.length_append, List.length_singleton, List.append_assoc log] at hrec
        rw [hsplit]
        exact hrec

/-! ## At most once, and first -/

theorem filter_requests {log : List (Nat × Occurrence D)} (h : ∀ x ∈ log, x.2.isSpawn = true) :
    log.filter (·.2.isRequest) = [] := by
  refine List.filter_eq_nil_iff.mpr fun x hx hr => ?_
  have hs := h x hx
  rcases x with ⟨turn, request | job⟩
  · cases hs
  · cases hr

theorem not_mem_spawned {log : List (Nat × Occurrence D)} (h : ∀ x ∈ log, x.2.isSpawn = true) {turn : Nat}
    {request : BulkOverwrite} {outcome : Except Error Unit} : (turn, Occurrence.request request outcome) ∉ log :=
  fun hm => absurd (h _ hm) Bool.false_ne_true

/-- What the turns of a run have sent and spawned, read off the log. -/
theorem Happened.once {framework : Framework D} {past left arrivals : List Arrival} {synchronized : Bool}
    {log : List (Nat × Occurrence D)} (h : Happened framework past synchronized log) (hpast : arrivals = past ++ left) :
    (log.filter (·.2.isRequest)).length ≤ 1 ∧
      (framework.registration = .none → ∀ x ∈ log, x.2.isRequest = false) ∧
      (∀ turn request outcome, (turn, Occurrence.request request outcome) ∈ log →
        outcome = .ok () ∧ FirstReady framework arrivals turn request) ∧
      (framework.registration ≠ .none → Preceded (fun x => x.2.isSuccess = true) (fun x => x.2.isSpawn = true) log) ∧
      (framework.registration ≠ .none → (∃ arrival ∈ past, arrival.ready) → ∃ x ∈ log, x.2.isSuccess = true) := by
  subst hpast
  cases h with
  | external hreg hlog =>
    have hnone := filter_requests hlog
    refine ⟨by rw [hnone]; exact Nat.zero_le 1, fun _ => by simpa using hnone, fun _ _ _ hm => ?_,
      fun hne => absurd hreg hne, fun hne => absurd hreg hne⟩
    exact absurd hm (not_mem_spawned hlog)
  | waiting hreg hnone =>
    refine ⟨Nat.zero_le 1, fun he => absurd he hreg, fun _ _ _ hm => (by cases hm), fun _ => Lib.preceded_nil _ _, ?_⟩
    rintro - ⟨arrival, ha, hr⟩
    exact absurd hr (hnone arrival ha)
  | @synchronized turn request spawned hfirst hlog =>
    have hreg := targets_registered hfirst.target
    refine ⟨?_, fun he => absurd he hreg, fun turn' request' outcome hm => ?_, fun _ => ?_, fun _ _ => ?_⟩
    · rw [List.filter_cons_of_pos rfl, filter_requests hlog]
      exact Nat.le_refl 1
    · rcases List.mem_cons.mp hm with he | hm
      · cases he
        exact ⟨rfl, hfirst.append left⟩
      · exact absurd hm (not_mem_spawned hlog)
    · intro before e after heq hspawn
      rcases before with _ | ⟨x, before⟩
      · obtain ⟨rfl, -⟩ := List.cons_eq_cons.mp heq
        cases hspawn
      · obtain ⟨rfl, -⟩ := List.cons_eq_cons.mp heq
        exact ⟨_, List.mem_cons_self .., rfl⟩
    · exact ⟨_, List.mem_cons_self .., rfl⟩

/-- In a run in which each shard is ready before its interactions: one bulk overwrite at
    most, and none without a registration; it is sent in the turn of the first READY, for
    its application and the configured target; nothing is spawned before it has succeeded;
    and its failure is what the loop returns, with nothing spawned. A run that gets to the
    end of a stream with a READY in it has synchronized. -/
theorem synchronized_once (framework : Framework D) (rest : Nat → BulkOverwrite → Except Error Unit)
    (last : List (Nat × Ending)) (arrivals : List Arrival) (hready : ShardsReady arrivals) {exit : Exit} {loop : Loop D}
    {log : List (Nat × Occurrence D)}
    (hrun : driveShardsLogged framework rest last 0 (Loop.start framework) arrivals = ((exit, loop), log)) :
    (log.filter (·.2.isRequest)).length ≤ 1 ∧
      (framework.registration = .none → ∀ x ∈ log, x.2.isRequest = false) ∧
      (∀ turn request outcome, (turn, Occurrence.request request outcome) ∈ log →
        FirstReady framework arrivals turn request) ∧
      (framework.registration ≠ .none → Preceded (fun x => x.2.isSuccess = true) (fun x => x.2.isSpawn = true) log) ∧
      (∀ turn request error, (turn, Occurrence.request request (.error error)) ∈ log →
        exit = .early error ∧ ∀ x ∈ log, x.2.isSpawn = false) ∧
      (framework.registration ≠ .none → (∃ arrival ∈ arrivals, arrival.ready) → (∃ result, exit = .streamEnd result) →
        ∃ x ∈ log, x.2.isSuccess = true) := by
  have hreturned := @run_history D framework rest last arrivals [] _ _ (happened_start framework) hready
  rw [List.nil_append, List.nil_append, List.length_nil, hrun] at hreturned
  cases hreturned with
  | stopped hpast h =>
    obtain ⟨hone, hnone, hfirst, hpreceded, -⟩ := h.once hpast
    refine ⟨hone, hnone, fun turn request outcome hm => (hfirst turn request outcome hm).2, hpreceded,
      fun turn request error hm => (by cases (hfirst turn request _ hm).1), ?_⟩
    rintro - - ⟨result, hexit⟩
    cases hexit
  | ended h =>
    obtain ⟨hone, hnone, hfirst, hpreceded, hsuccess⟩ := h.once (List.append_nil arrivals).symm
    exact ⟨hone, hnone, fun turn request outcome hm => (hfirst turn request outcome hm).2, hpreceded,
      fun turn request error hm => (by cases (hfirst turn request _ hm).1), fun hreg hr _ => hsuccess hreg hr⟩
  | @failed turn request error hfirst =>
    refine ⟨Nat.le_refl 1, fun he => absurd he (targets_registered hfirst.target), fun turn' request' outcome hm => ?_,
      fun _ before e after heq hspawn => ?_, fun turn' request' error' hm => ?_, ?_⟩
    · cases List.mem_singleton.mp hm
      exact hfirst
    · have hm : e ∈ [(turn, Occurrence.request request (.error error))] := heq ▸ by simp
      cases List.mem_singleton.mp hm
      cases hspawn
    · cases List.mem_singleton.mp hm
      refine ⟨rfl, fun x hx => ?_⟩
      rw [List.mem_singleton.mp hx]
      rfl
    · rintro - - ⟨result, hexit⟩
      cases hexit

/-- Two shards and one `/ping`: the second READY sends nothing, and the command is spawned
    after the overwrite. -/
theorem synchronized_once_two_shards :
    let ping : SlashCommand Unit := .leaf ⟨"ping", "Check bot responsiveness", []⟩ { handler := fun _ data => (.ok (), data) }
    let framework : Framework Unit := ⟨(CommandRegistry.new.insert ping).2, .global, 1, [], [], none, by decide⟩
    let ready := fun shardId : ShardId => (⟨[], .ok ⟨shardId, .dispatch ⟨"READY", .ok (.ready 7)⟩⟩, []⟩ : Arrival)
    let interaction : Interaction :=
      ⟨1, 2, .applicationCommand, "token", none, none, none, none, .ok (some ⟨"ping", .chatInput, []⟩)⟩
    let invoked : Arrival := ⟨[], .ok ⟨0, interactionEvent interaction⟩, []⟩
    let run := driveShardsLogged framework (fun _ _ => .ok ()) [] 0 (Loop.start framework) [ready 0, invoked, ready 1]
    (run.2.map fun x => (x.1, x.2.isRequest, x.2.isSpawn)) = [(0, true, false), (1, false, true)] ∧
      (run.2.filter (·.2.isRequest)).length ≤ 1 ∧
      Preceded (fun x => x.2.isSuccess = true) (fun x => x.2.isSpawn = true) run.2 := by
  intro ping framework ready interaction invoked run
  have hready : ShardsReady [ready 0, invoked, ready 1] := by
    intro before arrival after heq event he hinteraction
    have hnot : ∀ shardId, (ready shardId).event = .ok event → False := by
      intro shardId hr
      cases hr
      obtain ⟨dispatch, hd, hname⟩ := hinteraction
      cases hd
      exact absurd hname (by decide)
    rcases before with _ | ⟨first, _ | ⟨second, _ | ⟨third, before⟩⟩⟩
    · cases heq
      exact (hnot 0 he).elim
    · cases heq
      cases he
      exact ⟨ready 0, List.mem_singleton_self _, _, rfl, rfl, .decoded 7⟩
    · cases heq
      exact (hnot 1 he).elim
    · simp at heq
  obtain ⟨hone, -, -, hpreceded, -⟩ := synchronized_once framework (fun _ _ => .ok ()) [] _ hready rfl
  refine ⟨?_, hone, hpreceded (by decide)⟩
  unfold run framework invoked interaction ready ping
  rfl

end GloamCommands.Dispatch
