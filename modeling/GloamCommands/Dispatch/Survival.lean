/-
  GloamCommands.Dispatch.Survival — when the after hooks of a managed run survive its end
  (`drive_shards` in crates/gloam-commands/src/framework.rs).

  A command whose handler has been started owes its after hooks, and its error handler if
  a step has failed: so many more resumes. The schedule says how often a task is resumed
  before the loop returns, which is at the end of the stream or in the turn of the first
  event that does not pass one of the loop's `?` (`movesLeft`).
  - `covered_move`: what one move does to the debts; `drive_covered`: and a whole run.
  - `hooks_survive_iff`: exactly when the after hooks and the error handlers survive.
  - `after_hook_lost`: the stream ends while a handler waits.
-/

import GloamCommands.Dispatch.Shutdown

namespace GloamCommands.Dispatch

variable {D : Type}

/-! ## What is owed -/

/-- Every command whose handler has been started has had all that its execution owes it. -/
def Workers.Survive (workers : Workers D) : Prop := ∀ task p, workers.progress task = some p → p.Begun → p.Whole

def resumes (task : Nat) (moves : List TaskMove) : Nat :=
  moves.countP fun
    | .resume other _ => other == task
    | _ => false

/-- What the loop's `?` on an event, on synchronizing and on preparing it come to. -/
def passes (framework : Framework D) (synchronize : ApplicationId → Except Error Unit) (synchronized : Bool)
    (event : Except Error ShardEvent) : Except Error Bool :=
  match event with
  | .error error => .error error
  | .ok event =>
    match synchronizeOnReady synchronize synchronized event.event with
    | .error error => .error error
    | .ok synchronized => (prepareDispatch framework event.event (some event.shardId)).map fun _ => synchronized

/-- The moves there are until the loop returns: those around the events it reads, up to
    the first that does not pass, and `last` if all do. -/
def movesLeft (framework : Framework D) (synchronize : ApplicationId → Except Error Unit) (last : List TaskMove) :
    Bool → List Delivery → List TaskMove
  | _, [] => last
  | synchronized, delivery :: rest =>
    delivery.before ++ (delivery.during ++
      match passes framework synchronize synchronized delivery.event with
      | .error _ => []
      | .ok synchronized => movesLeft framework synchronize last synchronized rest)

/-- A resume does not leave its command owing more resumes than it still gets. -/
def Workers.Pays (workers : Workers D) (left : List TaskMove) : TaskMove → Prop
  | .resume task clock => ∀ p next world, workers.progress task = some p →
      p.advance clock workers.world = some (next, world) → next.owed ≤ resumes task left
  | _ => True

def Workers.Sustained (workers : Workers D) (later : List TaskMove) : List TaskMove → Prop
  | [] => True
  | move :: rest => workers.Pays (rest ++ later) move ∧ (workers.move move).Sustained later rest

/-- Every resume in a run of the loop pays, with what is left until the loop returns. -/
def DriveSustained (framework : Framework D) (synchronize : ApplicationId → Except Error Unit) (last : List TaskMove)
    (loop : Loop D) (workers : Workers D) : List Delivery → Prop
  | [] => Workers.Sustained { workers with endings := [] } [] last
  | delivery :: rest =>
    let before := workers.moves delivery.before
    let during := before.moves delivery.during
    let later :=
      match passes framework synchronize loop.synchronized delivery.event with
      | .error _ => []
      | .ok synchronized => movesLeft framework synchronize last synchronized rest
    Workers.Sustained { workers with endings := [] } (delivery.during ++ later) delivery.before ∧
      Workers.Sustained { before with endings := [] } later delivery.during ∧
      ∀ next, driveEvent framework synchronize loop ⟨before.endings, delivery.event, during.endings⟩ = .ok next →
        DriveSustained framework synchronize last next { during with live := next.tasks.live } rest

def Workers.Covered (workers : Workers D) (left : List TaskMove) : Prop :=
  ∀ task p, workers.progress task = some p → p.owed ≤ resumes task left

theorem resumes_cons (task : Nat) (move : TaskMove) (rest : List TaskMove) :
    resumes task rest ≤ resumes task (move :: rest) := by
  unfold resumes
  rw [List.countP_cons]
  omega

theorem resumes_own (task : Nat) (clock : Instant) (rest : List TaskMove) :
    resumes task (.resume task clock :: rest) = resumes task rest + 1 := by
  simp [resumes]

inductive Goes (workers : Workers D) (move : TaskMove) (task : Nat) : Option (Progress D) → Prop
  | stays : (∀ clock p, move = .resume task clock → workers.progress task = some p → p.owed = 0) →
      Goes workers move task (workers.progress task)
  | starts {command : PreparedCommand D} : workers.progress task = none → Goes workers move task (some (.start command))
  | resumes {clock : Instant} {p next : Progress D} {world : Execution.World D} : move = .resume task clock →
      workers.progress task = some p → p.advance clock workers.world = some (next, world) →
      Goes workers move task (some next)

/-- A command that is not live owes nothing. -/
theorem placed_owed {workers : Workers D} (h : workers.Placed) {task : Nat} {p : Progress D}
    (hp : workers.progress task = some p) (howed : p.owed ≠ 0) :
    workers.live[task]? = some (some (.command p.command)) ∧ ∀ result, p.point ≠ .returned result := by
  have hpoint : ∀ result, p.point ≠ .returned result :=
    fun result hreturned => howed (Progress.owed_zero.mpr fun _ => ⟨result, hreturned⟩)
  refine ⟨?_, hpoint⟩
  rw [h task p hp]
  cases hslot : p.slot with
  | none =>
    obtain ⟨result, hreturned⟩ := slot_none.mp hslot
    exact absurd hreturned (hpoint result)
  | some job => rw [slot_some hslot]

theorem move_goes {workers : Workers D} (h : workers.Placed) (move : TaskMove) (task : Nat) :
    Goes workers move task ((workers.move move).progress task) := by
  have hother : ∀ {moved : Nat} {p : Progress D} {world : Execution.World D}, task ≠ moved →
      (workers.put moved p world).progress task = workers.progress task := by
    intro moved p world hne
    rw [put_progress, Function.update_of_ne hne]
  cases move with
  | start moved =>
    have hstays : Goes workers (.start moved) task (workers.progress task) := .stays fun _ _ he => by cases he
    unfold Workers.move
    dsimp only
    split
    · rename_i hnone
      by_cases ht : task = moved
      · subst ht
        rw [put_progress, Function.update_self]
        exact .starts hnone
      · rw [hother ht]
        exact hstays
    · exact hstays
  | autocomplete moved rest =>
    have hstays : Goes workers (.autocomplete moved rest) task (workers.progress task) := .stays fun _ _ he => by cases he
    unfold Workers.move
    dsimp only
    split <;> exact hstays
  | resume moved clock =>
    by_cases ht : task = moved
    · subst ht
      unfold Workers.move
      dsimp only
      split
      · rename_i p hlive hp
        split
        · rename_i hadvance
          rw [put_progress, Function.update_self]
          exact .resumes rfl hp hadvance
        · rename_i hnone
          refine .stays fun clock' q he hq => ?_
          cases he
          by_contra howed
          rw [hp] at hq
          cases hq
          obtain ⟨next, world, hadvance, -⟩ := p.advance_some clock workers.world (placed_owed h hp howed).2
          rw [hnone] at hadvance
          cases hadvance
      · rename_i hno
        refine .stays fun clock' q he hq => ?_
        by_contra howed
        exact hno _ q (placed_owed h hq howed).1 hq
    · have hstays : Goes workers (.resume moved clock) task (workers.progress task) :=
        .stays fun _ _ he => by
          cases he
          exact absurd rfl ht
      unfold Workers.move
      dsimp only
      split
      · split
        · rw [hother ht]
          exact hstays
        · exact hstays
      · exact hstays

theorem resumes_other {task : Nat} {move : TaskMove} (h : ∀ clock, move ≠ .resume task clock) (rest : List TaskMove) :
    resumes task (move :: rest) = resumes task rest := by
  cases move with
  | resume other clock =>
    have hne : (other == task) = false := beq_false_of_ne fun he => h clock (by rw [he])
    simp [resumes, hne]
  | _ => simp [resumes]

theorem move_advances {workers : Workers D} (h : workers.Placed) {task : Nat} {clock : Instant} {p next : Progress D}
    {world : Execution.World D} (hp : workers.progress task = some p)
    (hadvance : p.advance clock workers.world = some (next, world)) :
    (workers.move (.resume task clock)).progress task = some next := by
  have hplace := h task p hp
  have hslot : p.slot = some (.command p.command) := by
    cases hs : p.slot with
    | some job => rw [slot_some hs]
    | none =>
      obtain ⟨result, hreturned⟩ := slot_none.mp hs
      obtain ⟨-, step, outcome, hstep, -⟩ := Progress.advance_inv hadvance
      rw [hreturned] at hstep
      cases hstep
  rw [hslot] at hplace
  simp only [Workers.move, hplace, hp, hadvance, put_progress, Function.update_self]

theorem covered_before {workers : Workers D} (h : workers.Placed) {move : TaskMove} {left : List TaskMove}
    (hafter : (workers.move move).Covered left) : workers.Covered (move :: left) := by
  intro task p hp
  have hthis := hafter task
  have hgoes := move_goes h move task
  revert hthis hgoes
  generalize (workers.move move).progress task = after
  intro hthis hgoes
  cases hgoes with
  | stays => exact Nat.le_trans (hthis p hp) (resumes_cons task move left)
  | starts hnone =>
    rw [hp] at hnone
    cases hnone
  | @resumes clock q next world hmove hq hadvance =>
    subst hmove
    rw [hp] at hq
    cases hq
    have hnext := hthis next rfl
    have hpaid := Progress.advance_owed hadvance
    rw [resumes_own]
    omega

theorem covered_pays {workers : Workers D} (h : workers.Placed) {move : TaskMove} {left : List TaskMove}
    (hafter : (workers.move move).Covered left) : workers.Pays left move := by
  cases move with
  | resume task clock => exact fun p next world hp hadvance => hafter task next (move_advances h hp hadvance)
  | _ => trivial

theorem covered_after {workers : Workers D} (h : workers.Placed) {move : TaskMove} {left : List TaskMove}
    (hbefore : workers.Covered (move :: left)) (hpays : workers.Pays left move) : (workers.move move).Covered left := by
  intro task p hp
  have hgoes := move_goes h move task
  rw [hp] at hgoes
  generalize hafter : some p = after at hgoes
  cases hgoes with
  | stays hidle =>
    have hcovered := hbefore task p hafter.symm
    by_cases hmove : ∃ clock, move = .resume task clock
    · obtain ⟨clock, rfl⟩ := hmove
      rw [hidle clock p rfl hafter.symm]
      exact Nat.zero_le _
    · rwa [resumes_other fun clock he => hmove ⟨clock, he⟩] at hcovered
  | starts =>
    cases hafter
    exact Nat.zero_le _
  | resumes hmove hq hadvance =>
    subst hmove
    cases hafter
    exact hpays _ _ _ hq hadvance

/-- One move: every command is covered after it exactly if every one was before, and the
    move pays. -/
theorem covered_move {workers : Workers D} (h : workers.Placed) (move : TaskMove) (left : List TaskMove) :
    (workers.move move).Covered left ↔ workers.Covered (move :: left) ∧ workers.Pays left move :=
  ⟨fun hafter => ⟨covered_before h hafter, covered_pays h hafter⟩, fun ⟨hbefore, hpays⟩ => covered_after h hbefore hpays⟩

theorem covered_moves {later : List TaskMove} (moves : List TaskMove) : ∀ {workers : Workers D}, workers.Placed →
    ((moves.foldl Workers.move workers).Covered later ↔
      workers.Covered (moves ++ later) ∧ workers.Sustained later moves) := by
  induction moves with
  | nil => exact fun _ => ⟨fun h => ⟨h, trivial⟩, fun h => h.1⟩
  | cons move rest ih =>
    intro workers h
    rw [List.foldl_cons, ih (moved_placed h (move_moved workers move)), covered_move h move (rest ++ later)]
    exact and_assoc

/-- No result waits that is not of a task that ran to its end, and no semaphore is closed. -/
structure Calm (tasks : Tasks D) : Prop where
  completed : ∀ ending ∈ tasks.ended, ending.joinError = none
  isOpen : tasks.permits.Open

theorem settle_calm {done : List (Nat × Ending)} (hdone : ∀ d ∈ done, d.2.joinError = none) :
    ∀ {tasks : Tasks D}, Calm tasks → Calm (tasks.settle done) := by
  induction done with
  | nil => exact fun h => h
  | cons d rest ih =>
    intro tasks h
    have hfinish : Calm (tasks.finish d) := by
      refine ⟨fun ending hmem => ?_, finish_open h.isOpen d⟩
      unfold Tasks.finish at hmem
      split at hmem
      · rcases List.mem_append.mp hmem with hmem | hmem
        · exact h.completed ending hmem
        · rw [List.mem_singleton.mp hmem]
          exact hdone d List.mem_cons_self
      · exact h.completed ending hmem
    exact ih (fun later hl => hdone later (List.mem_cons_of_mem _ hl)) hfinish

theorem moves_completed (workers : Workers D) (moves : List TaskMove) :
    ∀ d ∈ (workers.moves moves).endings, d.2.joinError = none := by
  have hput : ∀ (w : Workers D) task p world, (∀ d ∈ w.endings, d.2.joinError = none) →
      ∀ d ∈ (w.put task p world).endings, d.2.joinError = none := by
    intro w task p world hw d hd
    unfold Workers.put at hd
    dsimp only at hd
    split at hd
    · rcases List.mem_append.mp hd with hd | hd
      · exact hw d hd
      · rw [List.mem_singleton.mp hd]
        rfl
    · exact hw d hd
  have hfold : ∀ w : Workers D, (∀ d ∈ w.endings, d.2.joinError = none) →
      ∀ d ∈ (moves.foldl Workers.move w).endings, d.2.joinError = none := by
    induction moves with
    | nil => exact fun w hw => hw
    | cons move rest ih =>
      intro w hw
      refine ih _ ?_
      have hmoved := move_moved w move
      revert hmoved
      generalize w.move move = after
      intro hmoved
      cases hmoved with
      | stays => exact hw
      | starts => exact hput w _ _ _ hw
      | resumes => exact hput w _ _ _ hw
      | completes =>
        intro d hd
        rcases List.mem_append.mp hd with hd | hd
        · exact hw d hd
        · rw [List.mem_singleton.mp hd]
          rfl
  exact hfold { workers with endings := [] } fun d hd => absurd hd List.not_mem_nil

theorem dispatchShard_ended (framework : Framework D) (event : ShardEvent) (tasks : Tasks D) :
    (dispatchShard framework event tasks).2.ended = tasks.ended := by
  unfold dispatchShard
  split <;> rfl

/-- A turn of the loop fails exactly if its event does not pass. -/
theorem driveEvent_passes {framework : Framework D} {synchronize : ApplicationId → Except Error Unit} {loop : Loop D}
    {arrival : Arrival} (h : Calm loop.tasks) (hbefore : ∀ d ∈ arrival.before, d.2.joinError = none)
    (hduring : ∀ d ∈ arrival.during, d.2.joinError = none) :
    (∀ error, driveEvent framework synchronize loop arrival = .error error →
      passes framework synchronize loop.synchronized arrival.event = .error error) ∧
    ∀ next, driveEvent framework synchronize loop arrival = .ok next → Calm next.tasks ∧
      passes framework synchronize loop.synchronized arrival.event = .ok next.synchronized := by
  have hsettled := settle_calm hbefore h
  have hreap := (reap_iff _).mpr hsettled.completed
  have htasks : Calm ((loop.tasks.settle arrival.before).reaped.settle arrival.during) :=
    @settle_calm D _ hduring (loop.tasks.settle arrival.before).reaped
      ⟨fun _ hmem => absurd hmem List.not_mem_nil, hsettled.isOpen⟩
  unfold driveEvent passes
  simp only [hreap]
  have hfails : ∀ error : Error, (∀ other, (.error error : Except Error (Loop D)) = .error other →
      (.error error : Except Error Bool) = .error other) := fun _ _ he => by rw [Except.error.inj he]
  cases arrival.event with
  | error error => exact ⟨hfails error, fun _ he => by cases he⟩
  | ok event =>
    dsimp only
    cases synchronizeOnReady synchronize loop.synchronized event.event with
    | error error => exact ⟨hfails error, fun _ he => by cases he⟩
    | ok synchronized =>
      dsimp only
      cases hprepare : prepareDispatch framework event.event (some event.shardId) with
      | error error => exact ⟨hfails error, fun _ he => by cases he⟩
      | ok prepared =>
        dsimp only
        have hpermits := @dispatchShard_open D framework event _ htasks.isOpen
        rw [handlePrepared_dispatch _ htasks.isOpen hprepare]
        refine ⟨fun _ he => (by cases he), fun next he => ?_⟩
        cases he
        refine ⟨⟨fun ending hmem => htasks.completed ending ?_, hpermits⟩, rfl⟩
        change ending ∈ (dispatchShard framework event _).2.ended at hmem
        rwa [dispatchShard_ended] at hmem

/-- From where the loop stands: every command has been given what it owed when the loop
    returns, exactly if it is covered, and every resume until then pays. -/
theorem drive_covered {framework : Framework D} {synchronize : ApplicationId → Except Error Unit} {last : List TaskMove}
    (deliveries : List Delivery) : ∀ {loop : Loop D} {workers : Workers D}, loop.tasks.live = workers.live →
    Calm loop.tasks → workers.Placed →
    ((driveTasks framework synchronize last loop workers deliveries).2.Covered [] ↔
      workers.Covered (movesLeft framework synchronize last loop.synchronized deliveries) ∧
        DriveSustained framework synchronize last loop workers deliveries) := by
  induction deliveries with
  | nil =>
    intro loop workers _ _ h
    have hmoves := @covered_moves D [] last { workers with endings := [] } h
    rw [List.append_nil] at hmoves
    exact hmoves
  | cons delivery rest ih =>
    intro loop workers hlive hcalm h
    let before := workers.moves delivery.before
    let during := before.moves delivery.during
    have hplaced : before.Placed := moves_placed h delivery.before
    have hpassed := @driveEvent_passes D framework synchronize loop ⟨before.endings, delivery.event, during.endings⟩ hcalm
      (moves_completed workers delivery.before) (moves_completed before delivery.during)
    have hsegments : ∀ later, during.Covered later ↔ workers.Covered (delivery.before ++ (delivery.during ++ later)) ∧
        Workers.Sustained { workers with endings := [] } (delivery.during ++ later) delivery.before ∧
        Workers.Sustained { before with endings := [] } later delivery.during := by
      intro later
      rw [← and_assoc]
      refine (@covered_moves D later delivery.during { before with endings := [] } hplaced).trans (and_congr_left fun _ => ?_)
      exact @covered_moves D (delivery.during ++ later) delivery.before { workers with endings := [] } h
    rw [driveTasks, DriveSustained, movesLeft]
    cases hd : driveEvent framework synchronize loop ⟨before.endings, delivery.event, during.endings⟩ with
    | error error =>
      simp only [hpassed.1 error hd]
      have hreturned := hsegments []
      simp only [before, during] at hreturned
      rw [hreturned]
      simp
    | ok next =>
      obtain ⟨hnext, hpass⟩ := hpassed.2 next hd
      simp only [hpass]
      obtain ⟨spawned, hspawned⟩ := driveEvent_live hd
      have hbefore := moves_settles workers delivery.before loop.tasks hlive
      have hsettled := moves_settles before delivery.during (loop.tasks.settle before.endings).reaped hbefore
      have hplace : Workers.Placed { during with live := next.tasks.live } := by
        intro task p hp
        have hthis := moves_placed hplaced delivery.during task p hp
        show next.tasks.live[task]? = some p.slot
        rw [hspawned, hsettled, List.getElem?_append_left (List.getElem?_eq_some_iff.mp hthis).1]
        exact hthis
      have hrest := @ih next { during with live := next.tasks.live } rfl hnext hplace
      have hsame : ∀ left, Workers.Covered { during with live := next.tasks.live } left ↔ during.Covered left :=
        fun left => Iff.rfl
      rw [hsame, hsegments] at hrest
      simp only [before, during] at hrest ⊢
      rw [hrest]
      simp only [and_assoc, Except.ok.injEq, forall_eq']

/-- Whenever `drive_shards` returns, and ever after, the after hooks and the error handlers
    of the commands whose handler was started have run, exactly if no resume leaves a
    command with more to run than it is resumed before the loop returns. -/
theorem hooks_survive_iff (framework : Framework D) (synchronize : ApplicationId → Except Error Unit)
    (world : Execution.World D) (deliveries : List Delivery) (last later : List TaskMove) :
    ((driveTasks framework synchronize last (Loop.start framework) (Workers.start world) deliveries).2.dropped.moves
        later).Survive ↔
      DriveSustained framework synchronize last (Loop.start framework) (Workers.start world) deliveries := by
  have hstart : (Workers.start world).Placed := fun task p hp => (by cases hp)
  have hcovered := @drive_covered D framework synchronize last deliveries (Loop.start framework) (Workers.start world) rfl
    ⟨fun _ h => (by cases h), rfl, fun _ => rfl⟩ hstart
  have hnone : ∀ left, (Workers.start world).Covered left := fun left task p hp => (by cases hp)
  rw [and_iff_right (hnone _)] at hcovered
  rw [← hcovered]
  unfold Workers.Survive
  rw [dropped_progress]
  refine forall_congr' fun task => forall_congr' fun p => imp_congr_right fun _ => ?_
  rw [show resumes task [] = 0 from rfl, Nat.le_zero, Progress.owed_zero]
  exact forall_congr' fun hbegun => Progress.whole_iff hbegun

/-- `ping` has been started and waits in its handler when the stream ends. `drive_shards`
    returns `Ok`, and the after hook never runs. -/
theorem after_hook_lost :
    let ping : SlashCommand Unit := .leaf ⟨"ping", "Check bot responsiveness", []⟩ { handler := fun _ data => (.ok (), data) }
    let hook : CommandHook Unit := fun _ data => (.ok (), data)
    let commandData : ApplicationCommandInteractionData := ⟨"ping", .chatInput, []⟩
    let interaction : Interaction := ⟨1, 2, .applicationCommand, "token", none, none, none, none, .ok (some commandData)⟩
    let deliveries : List Delivery := [⟨[], .ok ⟨0, interactionEvent interaction⟩, []⟩]
    let last : List TaskMove := [.start 0, .resume 0 0]
    let world : Execution.World Unit := ⟨(), fun _ _ => none, []⟩
    ∃ framework : Framework Unit, framework.registry.get "ping" = some ping ∧ framework.afterHooks = [hook] ∧
      (driveTasks framework (fun _ => .ok ()) last (Loop.start framework) (Workers.start world) deliveries).1 =
        .streamEnd (.ok ()) ∧
      ∀ later, ¬ ((driveTasks framework (fun _ => .ok ()) last (Loop.start framework) (Workers.start world)
        deliveries).2.dropped.moves later).Survive := by
  intro ping hook commandData interaction deliveries last world
  obtain ⟨registered, hget⟩ := exists_framework ping rfl
  let framework : Framework Unit := { registered with beforeHooks := [], afterHooks := [hook], errorHandler := none }
  let prepared : PreparedCommand Unit :=
    ⟨"ping", fun _ data => (.ok (), data), {}, ⟨interaction, commandData, ["ping"], [], some 0⟩, [], [hook], none⟩
  have hprepare : prepareDispatch framework (interactionEvent interaction) (some 0) = .ok (.command prepared) := by
    rw [@prepareDispatch_registered Unit framework interaction (some 0) commandData ping (.inl rfl) rfl rfl hget]
    rfl
  have hspawn : ∃ next, driveEvent framework (fun _ => .ok ()) (Loop.start framework)
      ⟨[], .ok ⟨0, interactionEvent interaction⟩, []⟩ = .ok next ∧ next.tasks.live = [some (.command prepared)] ∧
        next.tasks.ended = [] := by
    have hready := @synchronizeOnReady_ok (fun _ => .ok ()) (fun _ => rfl) (Loop.start framework).synchronized
      (interactionEvent interaction) (fun _ hn => absurd hn (by decide))
    have hfree : framework.maxConcurrentCommands ≠ 0 := framework.limited
    unfold driveEvent
    simp only [hready, hprepare]
    simp [Tasks.settle, Tasks.reaped, reapCompletedCommands, handlePrepared, executeJob, Loop.decide, Tasks.spawn,
      tryExecute, takeLeaf, takeGlobal, Job.leafSlot, CommandPolicy.commandSlots, prepared, Semaphore.tryAcquire,
      Loop.start, World.start, hfree]
  obtain ⟨next, hdrive, hlive, hended⟩ := hspawn
  let spawned : Workers Unit := ⟨[some (.command prepared)], fun _ => none, world, []⟩
  have hrun : driveTasks framework (fun _ => .ok ()) last (Loop.start framework) (Workers.start world) deliveries =
      (.streamEnd (.ok ()), spawned.moves last) := by
    simp only [deliveries, driveTasks, moves_nil, Workers.start, hdrive, hlive]
    change (Exit.streamEnd (reapCompletedCommands next.tasks.ended), _) = _
    rw [hended]
    rfl
  refine ⟨framework, hget, rfl, by rw [hrun], fun later hsurvive => ?_⟩
  rw [hrun] at hsurvive
  have hp : ∃ p, (spawned.moves last).progress 0 = some p ∧ p.point = .handler := ⟨_, rfl, rfl⟩
  obtain ⟨p, hp, hpoint⟩ := hp
  have hwhole : p.Whole := hsurvive 0 p (by rw [dropped_progress]; exact hp) (.inl (by rw [hpoint]; rfl))
  obtain ⟨result, hreturned⟩ := Progress.whole_returned hwhole
  rw [hpoint] at hreturned
  cases hreturned

end GloamCommands.Dispatch
