/-
  GloamCommands.Dispatch.Run — a managed run from its start to its shutdown
  (`Framework::run` in crates/gloam-commands/src/framework.rs), and why one fails.

  What Gloamwire does is given: whether the client can be made and the shards start, what
  they deliver, what a request comes to, whether they shut down. The shards are shut down
  on every way out of the loop, and its error goes before theirs.

  A run is compared with the loop an application may own instead, which no error stops
  (`manualEvent`): `moments` has the turns of that loop. `RunFault` says of each what
  would stop a run there. A handler's error is not among it.
  - `driveEvent_fault`: a turn of the managed loop fails exactly with its fault.
  - `run_first_fault`: a run fails exactly with the first fault of its moments.
-/

import GloamCommands.Dispatch.Synchronize
import GloamCommands.Lib.Scan

namespace GloamCommands.Dispatch

open Lib (Faultless FirstFault Reports reports_nil reports_fault reports_cons reports_append reports_error reports_ok
  firstFault_nil firstFault_cons firstFault_append faultless_ok faultless_all_ok)

variable {D : Type}

/-! ## The run -/

abbrev GatewayIntents := BitVec 64

def GatewayIntents.empty : GatewayIntents := 0

structure Gateway where
  /-- `RestClient::new`. -/
  client : String → Except Error Unit
  /-- `ShardManager::start`. -/
  start : String → GatewayIntents → Except Error Unit
  rest : Nat → BulkOverwrite → Except Error Unit
  arrivals : List Arrival
  /-- What ends before the stream does. -/
  last : List (Nat × Ending)
  shutdown : Except Error Unit

def Exit.result : Exit → Except Error Unit
  | early error => .error error
  | streamEnd result => result

inductive Action (D : Type) where
  | loop (turn : Nat) (occurrence : Occurrence D)
  | shutdown

def Action.isShutdown : Action D → Bool
  | loop _ _ => false
  | shutdown => true

/-- `run`: its return, and what it has done. -/
def Framework.run (framework : Framework D) (gateway : Gateway) (token : String) :
    Except Error Unit × List (Action D) :=
  match gateway.client token with
  | .error error => (.error error, [])
  | .ok () =>
    match gateway.start token GatewayIntents.empty with
    | .error error => (.error error, [])
    | .ok () =>
      let driven := driveShardsLogged framework gateway.rest gateway.last 0 (Loop.start framework) gateway.arrivals
      let performed := driven.2.map (fun x => Action.loop x.1 x.2) ++ [.shutdown]
      match driven.1.1.result with
      | .error error => (.error error, performed)
      | .ok () => (gateway.shutdown, performed)

/-! ## What stops it -/

/-- The task did not run to its end, whatever a task that does returns. -/
def Broken (ending : Ending) (error : Error) : Prop := ∃ cause, ending.joinError = some cause ∧ error = .commandTask cause

/-- What would stop the managed loop in the next turn of the manual one. -/
inductive TurnFault (framework : Framework D) (rest : BulkOverwrite → Except Error Unit) (loop : Loop D)
    (arrival : Arrival) : Error → Prop
  | task {error : Error} : FirstFault Broken (loop.tasks.settle arrival.before).ended error →
      TurnFault framework rest loop arrival error
  | stream {error : Error} : (∀ ending ∈ (loop.tasks.settle arrival.before).ended, Faultless Broken ending) →
      arrival.event = .error error → TurnFault framework rest loop arrival error
  | ready {shardId : ShardId} {error : Error} :
      (∀ ending ∈ (loop.tasks.settle arrival.before).ended, Faultless Broken ending) → loop.synchronized = false →
      arrival.event = .ok ⟨shardId, .dispatch ⟨"READY", .error error⟩⟩ → TurnFault framework rest loop arrival error
  | overwrite {shardId : ShardId} {request : BulkOverwrite} {error : Error} :
      (∀ ending ∈ (loop.tasks.settle arrival.before).ended, Faultless Broken ending) → loop.synchronized = false →
      arrival.event = .ok ⟨shardId, .dispatch ⟨"READY", .ok (.ready request.applicationId)⟩⟩ →
      Targets framework.registration request.guildId → request.commands = createCommands framework.registry →
      rest request = .error error → TurnFault framework rest loop arrival error
  | dispatch {event : ShardEvent} {error : Error} :
      (∀ ending ∈ (loop.tasks.settle arrival.before).ended, Faultless Broken ending) → arrival.event = .ok event →
      prepareDispatch framework event.event (some event.shardId) = .error error → TurnFault framework rest loop arrival error

theorem faultless_broken (ending : Ending) : Faultless Broken ending ↔ ending.joinError = none := by
  constructor
  · intro h
    cases hj : ending.joinError with
    | none => rfl
    | some cause => exact absurd ⟨cause, hj, rfl⟩ (h (.commandTask cause))
  · intro h error ⟨cause, hj, _⟩
    rw [h] at hj
    cases hj

theorem broken_error (ending : Ending) (error error' : Error) (h : Broken ending error) (h' : Broken ending error') :
    error = error' := by
  obtain ⟨cause, hj, rfl⟩ := h
  obtain ⟨cause', hj', rfl⟩ := h'
  rw [hj] at hj'
  cases hj'
  rfl

theorem reap_reports (ended : List Ending) : Reports Broken ended (reapCompletedCommands ended) := by
  induction ended with
  | nil => exact reports_nil
  | cons ending rest ih =>
    unfold reapCompletedCommands
    cases hj : ending.joinError with
    | none => exact reports_cons ((faultless_broken ending).mpr hj) ih
    | some cause => exact reports_fault ⟨cause, hj, rfl⟩

/-- The results the managed loop still has to take tell as much as all of them. -/
theorem tracks_reports {taken : List Ending} {s m : Loop D} (ht : Tracks taken s m) (done : List (Nat × Ending)) :
    Reports Broken (m.tasks.settle done).ended (reapCompletedCommands (s.tasks.settle done).ended) := by
  have hended : (m.tasks.settle done).ended = taken ++ (s.tasks.settle done).ended := by
    rw [ht.tasks, settle_owing]
    rfl
  rw [hended]
  exact reports_append (.passed fun ending he => (faultless_broken ending).mpr (ht.completed ending he)) (reap_reports _)

/-! ## One turn -/

theorem readyApplicationId_error {event : GatewayEvent} {error : Error} (h : readyApplicationId event = .error error) :
    event = .dispatch ⟨"READY", .error error⟩ := by
  rcases event with ⟨name, typed⟩ | _
  · by_cases hname : name = "READY"
    · subst hname
      rcases typed with error | ⟨id⟩ | interaction | _ <;> cases h
      rfl
    · simp [readyApplicationId, hname] at h
  · cases h

theorem synchronizeCommands_error {framework : Framework D} {rest : BulkOverwrite → Except Error Unit}
    {applicationId : ApplicationId} {error : Error} :
    (synchronizeCommands framework rest applicationId).1 = .error error ↔
      ∃ request : BulkOverwrite, request.applicationId = applicationId ∧ Targets framework.registration request.guildId ∧
        request.commands = createCommands framework.registry ∧ rest request = .error error := by
  unfold synchronizeCommands
  constructor
  · intro h
    split at h
    · rename_i hreg
      exact ⟨⟨applicationId, none, createCommands framework.registry⟩, rfl, hreg ▸ .global, rfl, h⟩
    · rename_i guildId hreg
      exact ⟨⟨applicationId, some guildId, createCommands framework.registry⟩, rfl, hreg ▸ .guild guildId, rfl, h⟩
    · cases h
  · intro ⟨⟨id, guildId, commands⟩, hid, htarget, hcommands, hrest⟩
    dsimp only at hid htarget hcommands
    subst hid hcommands
    cases hreg : framework.registration with
    | global =>
      rw [hreg] at htarget
      cases htarget
      exact hrest
    | guild _ =>
      rw [hreg] at htarget
      cases htarget
      exact hrest
    | none =>
      rw [hreg] at htarget
      cases htarget

/-- Synchronizing in a turn fails exactly if none has been done and the event is a READY
    that does not decode, or one for which the request fails. -/
theorem synchronizeOnReady_error {framework : Framework D} {rest : BulkOverwrite → Except Error Unit} {synchronized : Bool}
    {event : GatewayEvent} {error : Error} :
    synchronizeOnReady (fun id => (synchronizeCommands framework rest id).1) synchronized event = .error error ↔
      synchronized = false ∧ (event = .dispatch ⟨"READY", .error error⟩ ∨ ∃ request : BulkOverwrite,
        event = .dispatch ⟨"READY", .ok (.ready request.applicationId)⟩ ∧ Targets framework.registration request.guildId ∧
          request.commands = createCommands framework.registry ∧ rest request = .error error) := by
  unfold synchronizeOnReady
  cases synchronized with
  | true => simp
  | false =>
    rw [if_neg Bool.false_ne_true]
    constructor
    · intro h
      refine ⟨rfl, ?_⟩
      split at h
      · rename_i hready
        cases h
        exact .inl (readyApplicationId_error hready)
      · cases h
      · rename_i id hready
        split at h
        · rename_i hsync
          cases h
          obtain ⟨request, rfl, hrequest⟩ := synchronizeCommands_error.mp hsync
          exact .inr ⟨request, readyApplicationId_some hready, hrequest⟩
        · cases h
    · intro h
      rcases h.2 with rfl | ⟨request, rfl, hrequest⟩
      · rfl
      · have hsync := synchronizeCommands_error.mpr ⟨request, rfl, hrequest⟩
        have hready : readyApplicationId (.dispatch ⟨"READY", .ok (.ready request.applicationId)⟩) =
            .ok (some request.applicationId) := rfl
        rw [hready]
        dsimp only
        rw [hsync]

/-- A turn of the managed loop fails exactly with its fault. -/
theorem driveEvent_fault {framework : Framework D} {rest : BulkOverwrite → Except Error Unit} {taken : List Ending}
    {s m : Loop D} (ht : Tracks taken s m) (arrival : Arrival) (error : Error) :
    driveEvent framework (fun id => (synchronizeCommands framework rest id).1) s arrival = .error error ↔
      TurnFault framework rest m arrival error := by
  have hreports := tracks_reports ht arrival.before
  have hclean := reports_ok hreports
  constructor
  · intro h
    unfold driveEvent at h
    dsimp only at h
    split at h
    · rename_i hreap
      cases h
      exact .task ((reports_error broken_error hreports _).mp hreap)
    rename_i hreap
    have hc := hclean.mp hreap
    split at h
    · rename_i he
      cases h
      exact .stream hc he
    rename_i event he
    split at h
    · rename_i hsync
      cases h
      obtain ⟨hfalse, hready⟩ := synchronizeOnReady_error.mp hsync
      rw [← ht.synchronized] at hfalse
      obtain ⟨shardId, event⟩ := event
      rcases hready with rfl | ⟨request, rfl, htarget, hcommands, hrest⟩
      · exact .ready hc hfalse he
      · exact .overwrite hc hfalse he htarget hcommands hrest
    split at h
    · rename_i hprepare
      cases h
      exact .dispatch hc he hprepare
    rename_i prepared hprepare
    -- what is prepared is executed or refused, as by the manual loop
    have hopen : ((s.tasks.settle arrival.before).reaped.settle arrival.during).permits.Open :=
      @settle_open D (s.tasks.settle arrival.before).reaped (settle_open ht.isOpen arrival.before) arrival.during
    rw [handlePrepared_dispatch _ hopen hprepare] at h
    cases h
  · intro h
    unfold driveEvent
    dsimp only
    cases h with
    | task h => rw [(reports_error broken_error hreports _).mpr h]
    | stream hc he => rw [hclean.mpr hc, he]
    | @ready shardId error hc hfalse he =>
      rw [ht.synchronized] at hfalse
      have hsync := (@synchronizeOnReady_error D framework rest _ _ error).mpr ⟨hfalse, .inl rfl⟩
      rw [hclean.mpr hc, he]
      dsimp only
      rw [hsync]
    | overwrite hc hfalse he htarget hcommands hrest =>
      rw [ht.synchronized] at hfalse
      have hsync := synchronizeOnReady_error.mpr ⟨hfalse, .inr ⟨_, rfl, htarget, hcommands, hrest⟩⟩
      rw [hclean.mpr hc, he]
      dsimp only
      rw [hsync]
    | @dispatch event error hc he hprepare =>
      -- an event that fails to be prepared is no READY
      have hsync : ∃ synchronized,
          synchronizeOnReady (fun id => (synchronizeCommands framework rest id).1) s.synchronized event.event =
            .ok synchronized := by
        cases hs : synchronizeOnReady (fun id => (synchronizeCommands framework rest id).1) s.synchronized event.event with
        | ok synchronized => exact ⟨synchronized, rfl⟩
        | error other =>
          obtain ⟨-, hready⟩ := synchronizeOnReady_error.mp hs
          rcases hready with hevent | ⟨request, hevent, -⟩ <;> (rw [hevent] at hprepare; cases hprepare)
      obtain ⟨synchronized, hsync⟩ := hsync
      rw [hclean.mpr hc, he]
      dsimp only
      rw [hsync]
      dsimp only
      rw [hprepare]

theorem synchronizeOnReady_succeeds {synchronize : ApplicationId → Except Error Unit} {synchronized next : Bool}
    {event : GatewayEvent} (h : synchronizeOnReady synchronize synchronized event = .ok next) :
    synchronizeOnReady (fun _ => .ok ()) synchronized event = .ok next := by
  unfold synchronizeOnReady at h ⊢
  by_cases hs : synchronized = true
  · rw [if_pos hs] at h ⊢
    exact h
  rw [if_neg hs] at h ⊢
  cases hready : readyApplicationId event with
  | error error =>
    rw [hready] at h
    cases h
  | ok ready =>
    rw [hready] at h
    cases ready with
    | none => exact h
    | some id =>
      dsimp only at h ⊢
      split at h
      · cases h
      · exact h

/-- A turn that does not fail has an event, and goes the same way if every request succeeds. -/
theorem driveEvent_succeeds {framework : Framework D} {synchronize : ApplicationId → Except Error Unit} {s s' : Loop D}
    {arrival : Arrival} (h : driveEvent framework synchronize s arrival = .ok s') :
    ∃ event, arrival.event = .ok event ∧ driveEvent framework (fun _ => .ok ()) s arrival = .ok s' := by
  unfold driveEvent at h ⊢
  dsimp only at h ⊢
  cases hreap : reapCompletedCommands (s.tasks.settle arrival.before).ended with
  | error error =>
    rw [hreap] at h
    cases h
  | ok _ =>
    rw [hreap] at h
    cases he : arrival.event with
    | error error =>
      rw [he] at h
      cases h
    | ok event =>
      rw [he] at h
      dsimp only at h
      refine ⟨event, rfl, ?_⟩
      split at h
      · cases h
      rename_i synchronized hsync
      dsimp only
      rw [synchronizeOnReady_succeeds hsync]
      exact h

theorem driveEvent_next {framework : Framework D} {synchronize : ApplicationId → Except Error Unit} {taken : List Ending}
    {s s' m : Loop D} (ht : Tracks taken s m) {arrival : Arrival}
    (h : driveEvent framework synchronize s arrival = .ok s') :
    ∃ taken', Tracks taken' s' (manualEvent framework m arrival) := by
  obtain ⟨event, he, hsame⟩ := driveEvent_succeeds h
  obtain ⟨taken', s'', hdrive, htracks⟩ := driveEvent_tracks (fun _ => rfl) ht he (driveEvent_tolerated ht h)
  rw [hsame] at hdrive
  cases hdrive
  exact ⟨taken', htracks⟩

/-! ## Whole runs -/

inductive Moment (D : Type) where
  | client
  | start
  | turn (turn : Nat) (loop : Loop D) (arrival : Arrival)
  | streamEnd (loop : Loop D)
  | shutdown

def turns (framework : Framework D) (turn : Nat) (loop : Loop D) : List Arrival → List (Moment D)
  | [] => [.streamEnd loop]
  | arrival :: rest => .turn turn loop arrival :: turns framework (turn + 1) (manualEvent framework loop arrival) rest

def moments (framework : Framework D) (gateway : Gateway) : List (Moment D) :=
  .client :: .start :: (turns framework 0 (Loop.start framework) gateway.arrivals ++ [.shutdown])

inductive RunFault (framework : Framework D) (gateway : Gateway) (token : String) : Moment D → Error → Prop
  | client {error : Error} : gateway.client token = .error error → RunFault framework gateway token .client error
  | start {error : Error} : gateway.start token GatewayIntents.empty = .error error →
      RunFault framework gateway token .start error
  | turn {turn : Nat} {loop : Loop D} {arrival : Arrival} {error : Error} :
      TurnFault framework (gateway.rest turn) loop arrival error → RunFault framework gateway token (.turn turn loop arrival) error
  | streamEnd {loop : Loop D} {error : Error} : FirstFault Broken (loop.tasks.settle gateway.last).ended error →
      RunFault framework gateway token (.streamEnd loop) error
  | shutdown {error : Error} : gateway.shutdown = .error error → RunFault framework gateway token .shutdown error

/-- The loop fails exactly with the first fault of the turns that are left. -/
theorem driveShards_fault {framework : Framework D} {gateway : Gateway} (token : String) {arrivals : List Arrival} :
    ∀ {turn : Nat} {taken : List Ending} {s m : Loop D}, Tracks taken s m → ∀ error,
      ((driveShardsLogged framework gateway.rest gateway.last turn s arrivals).1.1.result = .error error ↔
        FirstFault (RunFault framework gateway token) (turns framework turn m arrivals) error) := by
  induction arrivals with
  | nil =>
    intro turn taken s m ht error
    have hend := reports_error broken_error (tracks_reports ht gateway.last) error
    rw [turns, firstFault_cons]
    constructor
    · intro h
      exact .inl (.streamEnd (hend.mp h))
    · intro h
      rcases h with h | ⟨-, h⟩
      · cases h with
        | streamEnd h => exact hend.mpr h
      · cases h
  | cons arrival rest ih =>
    intro turn taken s m ht error
    have hturn := @driveEvent_fault D framework (gateway.rest turn) taken s m ht arrival
    have hfst := driveEventLogged_fst framework (gateway.rest turn) s arrival
    rw [turns, firstFault_cons, driveShardsLogged]
    rcases hd : driveEventLogged framework (gateway.rest turn) s arrival with ⟨stopped | next, occurred⟩
    · rw [hd] at hfst
      have hfault := (hturn stopped).mp hfst.symm
      constructor
      · intro h
        cases h
        exact .inl (.turn hfault)
      · intro h
        rcases h with h | ⟨hnone, -⟩
        · cases h with
          | turn h =>
            have hsame := (hturn error).mpr h
            rw [← hfst] at hsame
            cases hsame
            rfl
        · exact absurd (.turn hfault) (hnone stopped)
    · rw [hd] at hfst
      have hnone : Faultless (RunFault framework gateway token) (.turn turn m arrival) := by
        intro other h
        cases h with
        | turn h =>
          have hsame := (hturn other).mpr h
          rw [← hfst] at hsame
          cases hsame
      obtain ⟨taken', ht'⟩ := driveEvent_next ht hfst.symm
      have hrest := @ih (turn + 1) taken' next _ ht' error
      constructor
      · intro h
        exact .inr ⟨hnone, hrest.mp h⟩
      · intro h
        rcases h with h | ⟨-, h⟩
        · exact absurd h (hnone error)
        · exact hrest.mpr h

def Gateway.Started (gateway : Gateway) (token : String) : Prop :=
  gateway.client token = .ok () ∧ gateway.start token GatewayIntents.empty = .ok ()

theorem run_started {framework : Framework D} {gateway : Gateway} {token : String} (h : gateway.Started token) :
    let driven := driveShardsLogged framework gateway.rest gateway.last 0 (Loop.start framework) gateway.arrivals
    (framework.run gateway token).2 = driven.2.map (fun x => Action.loop x.1 x.2) ++ [.shutdown] ∧
      ∀ error, ((framework.run gateway token).1 = .error error ↔
        driven.1.1.result = .error error ∨ driven.1.1.result = .ok () ∧ gateway.shutdown = .error error) := by
  unfold Framework.run
  rw [h.1, h.2]
  dsimp only
  cases driveShardsLogged framework gateway.rest gateway.last 0 (Loop.start framework) gateway.arrivals with
  | mk driven occurred =>
    dsimp only
    cases driven.1.result with
    | error error => simp
    | ok _ => simp

theorem run_unstarted {framework : Framework D} {gateway : Gateway} {token : String} (h : ¬ gateway.Started token) :
    (framework.run gateway token).2 = [] ∧ ∀ error, ((framework.run gateway token).1 = .error error ↔
      gateway.client token = .error error ∨
        gateway.client token = .ok () ∧ gateway.start token GatewayIntents.empty = .error error) := by
  unfold Framework.run
  cases hc : gateway.client token with
  | error error => simp
  | ok _ =>
    dsimp only
    cases hs : gateway.start token GatewayIntents.empty with
    | error error => simp
    | ok _ => exact absurd ⟨hc, hs⟩ h

/-- A run fails exactly with the first fault of its moments: the client, the shards, the
    turns in order, the end of the stream, the shutdown. Once the shards have started they
    are shut down, once and after everything else, however the loop ends. -/
theorem run_first_fault (framework : Framework D) (gateway : Gateway) (token : String) :
    (∀ error, (framework.run gateway token).1 = .error error ↔
      FirstFault (RunFault framework gateway token) (moments framework gateway) error) ∧
    (¬ gateway.Started token → (framework.run gateway token).2 = []) ∧
    (gateway.Started token → ∃ before, (framework.run gateway token).2 = before ++ [.shutdown] ∧
      ∀ action ∈ before, action.isShutdown = false) := by
  have hclient : ∀ error, RunFault framework gateway token .client error ↔ gateway.client token = .error error :=
    fun error => ⟨fun h => by cases h; assumption, .client⟩
  have hstart : ∀ error, RunFault framework gateway token .start error ↔
      gateway.start token GatewayIntents.empty = .error error := fun error => ⟨fun h => by cases h; assumption, .start⟩
  have hshutdown : ∀ error, RunFault framework gateway token .shutdown error ↔ gateway.shutdown = .error error :=
    fun error => ⟨fun h => by cases h; assumption, .shutdown⟩
  refine ⟨fun error => ?_, fun h => (run_unstarted h).1, fun h => ⟨_, (run_started h).1, ?_⟩⟩
  · unfold moments
    rw [firstFault_cons, firstFault_cons, firstFault_append, firstFault_cons, hclient, hstart, hshutdown,
      faultless_ok hclient, faultless_ok hstart]
    by_cases h : gateway.Started token
    · have hloop := @driveShards_fault D framework gateway token gateway.arrivals 0 [] _ _ (tracks_start framework)
      rw [(run_started h).2, ← hloop, faultless_all_ok hloop, h.1, h.2]
      simp [firstFault_nil]
    · rw [(run_unstarted h).2]
      unfold Gateway.Started at h
      tauto
  · intro action hmem
    obtain ⟨x, -, rfl⟩ := List.mem_map.mp hmem
    rfl

end GloamCommands.Dispatch
