/-
  GloamCommands.Dispatch.Permits — the slots that bound execution
  (`try_execute`, `spawn_prepared`, `dispatch`, `dispatch_shard` in
  crates/gloam-commands/src/framework.rs).

  One semaphore bounds all executions, and one more each leaf that has a limit, shared by
  the leaf's invocations. A command takes its leaf's slot and then a global one, and
  gives the leaf's back if there is no global one; an autocomplete only takes a global
  one. The permits live in the spawned future and are given back when it is dropped.

  The machine. An attempt goes through `prepare_dispatch`, the runtime check, the two
  slots and the spawn one step at a time; then its task runs, ends in some way, and
  gives its permits back, in either order. Any number of attempts interleave.
  - `permits_conserved`: free permits and holders are the limit, of every semaphore.
  - `dispatch_steps`: the source's `dispatch` is one attempt's steps in a row.
-/

import GloamCommands.Dispatch.Routing
import GloamCommands.Lib.Pool
import GloamCommands.Lib.Runs

namespace GloamCommands.Dispatch

open Lib (Conserved run run_invariant)

variable {D : Type}

/-! ## Semaphores -/

/-- tokio's `Semaphore`, by what is documented of it: the permits that are free, and that
    `try_acquire_owned` takes one of them or says why it does not. That much determines it;
    proofs use it by the laws `tryAcquire_free`, `tryAcquire_ok` and those of its errors. -/
structure Semaphore where
  available : Nat
  closed : Bool
  deriving DecidableEq, Repr

inductive TryAcquireError where
  | noPermits
  | closed
  deriving DecidableEq, Repr

def Semaphore.acquire (s : Semaphore) : Semaphore := { s with available := s.available - 1 }

def Semaphore.tryAcquire (s : Semaphore) : Except TryAcquireError Semaphore :=
  if s.closed then .error .closed
  else if s.available = 0 then .error .noPermits
  else .ok s.acquire

def Semaphore.release (s : Semaphore) : Semaphore := { s with available := s.available + 1 }

theorem tryAcquire_free {s : Semaphore} (hopen : s.closed = false) (hfree : s.available ≠ 0) :
    s.tryAcquire = .ok s.acquire := by
  unfold Semaphore.tryAcquire
  rw [if_neg (ne_true_of_eq_false hopen), if_neg hfree]

theorem tryAcquire_ok {s slots : Semaphore} (h : s.tryAcquire = .ok slots) :
    s.available ≠ 0 ∧ slots = s.acquire := by
  unfold Semaphore.tryAcquire at h
  split at h
  · cases h
  · split at h
    · cases h
    · rename_i hne
      cases h
      exact ⟨hne, rfl⟩

theorem tryAcquire_open {s : Semaphore} {error : TryAcquireError} (hs : s.closed = false)
    (h : s.tryAcquire = .error error) : error = .noPermits := by
  unfold Semaphore.tryAcquire at h
  rw [if_neg (ne_true_of_eq_false hs)] at h
  split at h
  · cases h; rfl
  · cases h

theorem tryAcquire_noPermits {s : Semaphore} (h : s.tryAcquire = .error .noPermits) : s.available = 0 := by
  unfold Semaphore.tryAcquire at h
  split at h
  · cases h
  · split at h
    · rename_i hzero
      exact hzero
    · cases h

structure Permits where
  global : Semaphore
  leaf : List String → Semaphore

/-! ## Attempts -/

inductive Job (D : Type) where
  | command (prepared : PreparedCommand D)
  | autocomplete (prepared : PreparedAutocomplete D)

def Job.commandName : Job D → String
  | command prepared => prepared.commandName
  | autocomplete prepared => prepared.commandName

def Job.leafSlot : Job D → Option (List String)
  | command prepared => prepared.policy.commandSlots.map fun _ => prepared.context.commandPath
  | autocomplete _ => none

/-- A spawned task is in the machine; the outcome carries its name. -/
inductive DispatchOutcome where
  | ignored
  | unregistered (name : String)
  | atCapacity (name : String)
  | spawned (name : String)
  deriving DecidableEq, Repr

def takeLeaf (job : Job D) (permits : Permits) : Except TryAcquireError Permits :=
  match job.leafSlot with
  | none => .ok permits
  | some path =>
    match (permits.leaf path).tryAcquire with
    | .error error => .error error
    | .ok slots => .ok { permits with leaf := Function.update permits.leaf path slots }

def dropLeaf (job : Job D) (permits : Permits) : Permits :=
  match job.leafSlot with
  | none => permits
  | some path => { permits with leaf := Function.update permits.leaf path (permits.leaf path).release }

def takeGlobal (permits : Permits) : Except TryAcquireError Permits :=
  match permits.global.tryAcquire with
  | .error error => .error error
  | .ok slots => .ok { permits with global := slots }

def dropGlobal (permits : Permits) : Permits := { permits with global := permits.global.release }

def refusal (job : Job D) : TryAcquireError → Except Error DispatchOutcome
  | .noPermits => .ok (.atCapacity job.commandName)
  | .closed => .error .commandSchedulerClosed

/-- `try_execute` of both prepared values: the permits are in the future on `Ok`. -/
def tryExecute (job : Job D) (permits : Permits) : Except TryAcquireError Unit × Permits :=
  match takeLeaf job permits with
  | .error error => (.error error, permits)
  | .ok withLeaf =>
    match takeGlobal withLeaf with
    | .error error => (.error error, dropLeaf job withLeaf)
    | .ok withBoth => (.ok (), withBoth)

/-- What there is to execute, or the outcome when there is nothing. -/
def jobOf (prepared : Except Error (PreparedDispatch D)) : Except (Except Error DispatchOutcome) (Job D) :=
  match prepared with
  | .error error => .error (.error error)
  | .ok .ignored => .error (.ok .ignored)
  | .ok (.unregistered name) => .error (.ok (.unregistered name))
  | .ok (.command command) => .ok (.command command)
  | .ok (.autocomplete autocomplete) => .ok (.autocomplete autocomplete)

/-- `dispatch` and `dispatch_shard`. `inside` says whether there is an async runtime. -/
def dispatch (framework : Framework D) (event : GatewayEvent) (shardId : Option ShardId) (inside : Bool)
    (permits : Permits) : Except Error DispatchOutcome × Permits :=
  match jobOf (prepareDispatch framework event shardId) with
  | .error outcome => (outcome, permits)
  | .ok job =>
    if inside then
      match tryExecute job permits with
      | (.error error, permits) => (refusal job error, permits)
      | (.ok (), permits) => (.ok (.spawned job.commandName), permits)
    else (.error .noAsyncRuntime, permits)

/-! ## The machine -/

inductive Stage (D : Type) where
  | prepared (job : Job D)
  | entered (job : Job D)
  | reserved (job : Job D)
  | boxed (job : Job D)
  /-- The global slot was refused; the leaf's is still to be dropped. -/
  | rejected (job : Job D) (outcome : Except Error DispatchOutcome)
  | refused (outcome : Except Error DispatchOutcome)
  | live (job : Job D)
  /-- The future is being dropped; the flags say what is still held. -/
  | closing (job : Job D) (leaf global : Bool)

/-- An attempt, with what it has changed the two counts by. -/
structure Attempt (D : Type) where
  stage : Stage D
  leafDelta : Int
  globalDelta : Int

structure World (D : Type) where
  permits : Permits
  attempts : List (Attempt D)
  /-- The attempts whose future has run, in order. -/
  ran : List Nat

inductive Ending where
  | completed (result : Except Error Unit)
  | panicked
  | aborted

inductive Move where
  | begin (event : GatewayEvent) (shardId : Option ShardId)
  | enter (attempt : Nat) (inside : Bool)
  | reserve (attempt : Nat)
  | box (attempt : Nat)
  | drop (attempt : Nat)
  | spawn (attempt : Nat)
  | poll (attempt : Nat)
  | finish (attempt : Nat) (ending : Ending)
  | releaseLeaf (attempt : Nat)
  | releaseGlobal (attempt : Nat)

def World.put (w : World D) (i : Nat) (attempt : Attempt D) : World D :=
  { w with attempts := w.attempts.set i attempt }

def Job.cost (job : Job D) : Int := if job.leafSlot.isSome then 1 else 0

def step (framework : Framework D) (w : World D) : Move → Option (World D)
  | .begin event shardId =>
    let stage :=
      match jobOf (prepareDispatch framework event shardId) with
      | .error outcome => Stage.refused outcome
      | .ok job => .prepared job
    some { w with attempts := w.attempts ++ [⟨stage, 0, 0⟩] }
  | .enter i inside =>
    match w.attempts[i]? with
    | some ⟨.prepared job, l, g⟩ =>
      some (w.put i ⟨if inside then .entered job else .refused (.error .noAsyncRuntime), l, g⟩)
    | _ => none
  | .reserve i =>
    match w.attempts[i]? with
    | some ⟨.entered job, l, g⟩ =>
      match takeLeaf job w.permits with
      | .error error => some (w.put i ⟨.refused (refusal job error), l, g⟩)
      | .ok permits => some { w.put i ⟨.reserved job, l - job.cost, g⟩ with permits := permits }
    | _ => none
  | .box i =>
    match w.attempts[i]? with
    | some ⟨.reserved job, l, g⟩ =>
      match takeGlobal w.permits with
      | .error error => some (w.put i ⟨.rejected job (refusal job error), l, g⟩)
      | .ok permits => some { w.put i ⟨.boxed job, l, g - 1⟩ with permits := permits }
    | _ => none
  | .drop i =>
    match w.attempts[i]? with
    | some ⟨.rejected job outcome, l, g⟩ =>
      some { w.put i ⟨.refused outcome, l + job.cost, g⟩ with permits := dropLeaf job w.permits }
    | _ => none
  | .spawn i =>
    match w.attempts[i]? with
    | some ⟨.boxed job, l, g⟩ => some (w.put i ⟨.live job, l, g⟩)
    | _ => none
  | .poll i =>
    match w.attempts[i]? with
    | some ⟨.live _, _, _⟩ => some { w with ran := w.ran ++ [i] }
    | _ => none
  | .finish i _ =>
    match w.attempts[i]? with
    | some ⟨.live job, l, g⟩ => some (w.put i ⟨.closing job job.leafSlot.isSome true, l, g⟩)
    | _ => none
  | .releaseLeaf i =>
    match w.attempts[i]? with
    | some ⟨.closing job true global, l, g⟩ =>
      some { w.put i ⟨.closing job false global, l + job.cost, g⟩ with permits := dropLeaf job w.permits }
    | _ => none
  | .releaseGlobal i =>
    match w.attempts[i]? with
    | some ⟨.closing job leaf true, l, g⟩ =>
      some { w.put i ⟨.closing job leaf false, l, g + 1⟩ with permits := dropGlobal w.permits }
    | _ => none

/-! ## Holders -/

def leafLimit (framework : Framework D) (path : List String) : Option Nat :=
  (framework.registry.leafAt path).bind fun leaf => leaf.policy.bind (·.maxConcurrency)

def World.start (framework : Framework D) (closedGlobal : Bool) (closedLeaf : List String → Bool) : World D where
  permits := {
    global := ⟨framework.maxConcurrentCommands, closedGlobal⟩
    leaf := fun path => ⟨(leafLimit framework path).getD 0, closedLeaf path⟩ }
  attempts := []
  ran := []

namespace Attempt

def leaf (a : Attempt D) : Option (List String) :=
  match a.stage with
  | .reserved job => job.leafSlot
  | .boxed job => job.leafSlot
  | .rejected job _ => job.leafSlot
  | .live job => job.leafSlot
  | .closing job leaf _ => if leaf then job.leafSlot else none
  | _ => none

def holdsLeaf (path : List String) (a : Attempt D) : Bool := a.leaf == some path

def holdsGlobal (a : Attempt D) : Bool :=
  match a.stage with
  | .boxed _ => true
  | .live _ => true
  | .closing _ _ global => global
  | _ => false

def running (a : Attempt D) : Bool :=
  match a.stage with
  | .live _ => true
  | _ => false

def runningCommand (path : List String) (a : Attempt D) : Bool :=
  match a.stage with
  | .live (.command command) => command.context.commandPath == path
  | _ => false

/-- The attempt is under way with a slot, or its task has not given everything back. -/
def inProgress (a : Attempt D) : Bool :=
  match a.stage with
  | .prepared _ => false
  | .entered _ => false
  | .refused _ => false
  | .closing _ leaf global => leaf || global
  | _ => true

def spawned (a : Attempt D) : Bool :=
  match a.stage with
  | .live _ => true
  | .closing _ _ _ => true
  | _ => false

def job (a : Attempt D) : Option (Job D) :=
  match a.stage with
  | .prepared job => some job
  | .entered job => some job
  | .reserved job => some job
  | .boxed job => some job
  | .rejected job _ => some job
  | .refused _ => none
  | .live job => some job
  | .closing job _ _ => some job

end Attempt

/-! ## What a move can do -/

def Job.Registered (framework : Framework D) : Job D → Prop
  | .command prepared => prepared.policy.commandSlots = leafLimit framework prepared.context.commandPath
  | .autocomplete _ => True

/-- Attempt `a` becomes `b` and nothing it holds changes. -/
structure Keeps (a b : Attempt D) : Prop where
  leaf : b.leaf = a.leaf
  global : b.holdsGlobal = a.holdsGlobal
  leafDelta : b.leafDelta = a.leafDelta
  globalDelta : b.globalDelta = a.globalDelta

/-- A move, by what it does to the permits. -/
inductive Effect (framework : Framework D) (w : World D) : World D → Prop
  | begin {a : Attempt D} : a.leaf = none → a.holdsGlobal = false → a.leafDelta = 0 → a.globalDelta = 0 →
      (∀ job, a.job = some job → job.Registered framework) → Effect framework w { w with attempts := w.attempts ++ [a] }
  | poll {i : Nat} {a : Attempt D} : w.attempts[i]? = some a → a.spawned = true →
      Effect framework w { w with ran := w.ran ++ [i] }
  | keep {i : Nat} {a b : Attempt D} : w.attempts[i]? = some a → Keeps a b →
      (∀ job, b.job = some job → a.job = some job) → (a.spawned = true → b.spawned = true) →
      Effect framework w (w.put i b)
  | takeLeaf {i : Nat} {a b : Attempt D} {path : List String} : w.attempts[i]? = some a →
      (w.permits.leaf path).available ≠ 0 → a.leaf = none → b.leaf = some path → b.holdsGlobal = a.holdsGlobal →
      b.leafDelta = a.leafDelta - 1 → b.globalDelta = a.globalDelta → (∀ job, b.job = some job → a.job = some job) →
      a.spawned = false →
      Effect framework w { w.put i b with permits := { w.permits with
        leaf := Function.update w.permits.leaf path (w.permits.leaf path).acquire } }
  | takeGlobal {i : Nat} {a b : Attempt D} : w.attempts[i]? = some a → w.permits.global.available ≠ 0 →
      a.holdsGlobal = false → b.holdsGlobal = true → b.leaf = a.leaf → b.leafDelta = a.leafDelta →
      b.globalDelta = a.globalDelta - 1 → (∀ job, b.job = some job → a.job = some job) → a.spawned = false →
      Effect framework w { w.put i b with permits := { w.permits with global := w.permits.global.acquire } }
  | giveLeaf {i : Nat} {a b : Attempt D} {path : List String} : w.attempts[i]? = some a → a.leaf = some path →
      b.leaf = none → b.holdsGlobal = a.holdsGlobal → b.leafDelta = a.leafDelta + 1 → b.globalDelta = a.globalDelta →
      (∀ job, b.job = some job → a.job = some job) → (a.spawned = true → b.spawned = true) →
      Effect framework w { w.put i b with permits := { w.permits with
        leaf := Function.update w.permits.leaf path (w.permits.leaf path).release } }
  | giveGlobal {i : Nat} {a b : Attempt D} : w.attempts[i]? = some a → a.holdsGlobal = true → b.holdsGlobal = false →
      b.leaf = a.leaf → b.leafDelta = a.leafDelta → b.globalDelta = a.globalDelta + 1 →
      (∀ job, b.job = some job → a.job = some job) → (a.spawned = true → b.spawned = true) →
      Effect framework w { w.put i b with permits := { w.permits with global := w.permits.global.release } }

theorem jobOf_registered {framework : Framework D} {event : GatewayEvent} {shardId : Option ShardId} {job : Job D}
    (h : jobOf (prepareDispatch framework event shardId) = .ok job) : job.Registered framework := by
  cases hp : prepareDispatch framework event shardId with
  | error error => rw [hp] at h; cases h
  | ok prepared =>
    rw [hp] at h
    cases prepared with
    | ignored => cases h
    | unregistered => cases h
    | autocomplete => cases h; trivial
    | command prepared =>
      cases h
      obtain ⟨leaf, hleaf, hpolicy⟩ := prepareDispatch_leaf hp
      show prepared.policy.commandSlots = leafLimit framework prepared.context.commandPath
      unfold leafLimit
      rw [hleaf, Option.bind_some, hpolicy]
      rfl

theorem takeLeaf_ok {job : Job D} {permits next : Permits} (h : takeLeaf job permits = .ok next) :
    (job.leafSlot = none ∧ next = permits) ∨
      ∃ path, job.leafSlot = some path ∧ (permits.leaf path).available ≠ 0 ∧
        next = { permits with leaf := Function.update permits.leaf path (permits.leaf path).acquire } := by
  unfold takeLeaf at h
  split at h
  · rename_i hs
    cases h
    exact .inl ⟨hs, rfl⟩
  · rename_i path hs
    split at h
    · cases h
    · rename_i slots ht
      cases h
      obtain ⟨hne, rfl⟩ := tryAcquire_ok ht
      exact .inr ⟨path, hs, hne, rfl⟩

theorem takeGlobal_ok {permits next : Permits} (h : takeGlobal permits = .ok next) :
    permits.global.available ≠ 0 ∧ next = { permits with global := permits.global.acquire } := by
  unfold takeGlobal at h
  split at h
  · cases h
  · rename_i slots ht
    cases h
    obtain ⟨hne, rfl⟩ := tryAcquire_ok ht
    exact ⟨hne, rfl⟩

theorem cost_none {job : Job D} (h : job.leafSlot = none) : job.cost = 0 := by simp [Job.cost, h]

theorem cost_some {job : Job D} {path : List String} (h : job.leafSlot = some path) : job.cost = 1 := by
  simp [Job.cost, h]

theorem dropLeaf_none {job : Job D} (h : job.leafSlot = none) (permits : Permits) : dropLeaf job permits = permits := by
  unfold dropLeaf
  rw [h]

theorem dropLeaf_some {job : Job D} {path : List String} (h : job.leafSlot = some path) (permits : Permits) :
    dropLeaf job permits =
      { permits with leaf := Function.update permits.leaf path (permits.leaf path).release } := by
  unfold dropLeaf
  rw [h]

theorem step_effect {framework : Framework D} {w w' : World D} {m : Move} (h : step framework w m = some w') :
    Effect framework w w' := by
  cases m with
  | begin event shardId =>
    simp only [step, Option.some.injEq] at h
    subst h
    cases hj : jobOf (prepareDispatch framework event shardId) with
    | error outcome => exact .begin rfl rfl rfl rfl (fun job h => by cases h)
    | ok job => exact .begin rfl rfl rfl rfl (fun job' h => by cases h; exact jobOf_registered hj)
  | enter i inside =>
    simp only [step] at h
    split at h
    · rename_i job l g ha
      cases h
      cases inside with
      | true => exact .keep ha ⟨rfl, rfl, rfl, rfl⟩ (fun _ h => h) (fun h => by cases h)
      | false => exact .keep ha ⟨rfl, rfl, rfl, rfl⟩ (fun _ h => by cases h) (fun h => by cases h)
    · cases h
  | reserve i =>
    simp only [step] at h
    split at h
    · rename_i job l g ha
      cases ht : takeLeaf job w.permits with
      | error error =>
        rw [ht] at h
        cases h
        exact .keep ha ⟨rfl, rfl, rfl, rfl⟩ (fun _ h => by cases h) (fun h => by cases h)
      | ok permits =>
        rw [ht] at h
        cases h
        rcases takeLeaf_ok ht with ⟨hs, rfl⟩ | ⟨path, hs, hne, rfl⟩
        · exact .keep ha ⟨hs, rfl, by simp [cost_none hs], rfl⟩ (fun _ h => h) (fun h => by cases h)
        · exact .takeLeaf ha hne rfl hs rfl (by simp [cost_some hs]) rfl (fun _ h => h) rfl
    · cases h
  | box i =>
    simp only [step] at h
    split at h
    · rename_i job l g ha
      cases ht : takeGlobal w.permits with
      | error error =>
        rw [ht] at h
        cases h
        exact .keep ha ⟨rfl, rfl, rfl, rfl⟩ (fun _ h => h) (fun h => by cases h)
      | ok permits =>
        rw [ht] at h
        cases h
        obtain ⟨hne, rfl⟩ := takeGlobal_ok ht
        exact .takeGlobal ha hne rfl rfl rfl rfl rfl (fun _ h => h) rfl
    · cases h
  | drop i =>
    simp only [step] at h
    split at h
    · rename_i job outcome l g ha
      cases h
      cases hs : job.leafSlot with
      | none =>
        rw [dropLeaf_none hs]
        exact .keep ha ⟨hs.symm, rfl, by simp [cost_none hs], rfl⟩ (fun _ h => by cases h) (fun h => by cases h)
      | some path =>
        rw [dropLeaf_some hs]
        exact .giveLeaf ha hs rfl rfl (by simp [cost_some hs]) rfl (fun _ h => by cases h) (fun h => by cases h)
    · cases h
  | spawn i =>
    simp only [step] at h
    split at h
    · rename_i job l g ha
      cases h
      exact .keep ha ⟨rfl, rfl, rfl, rfl⟩ (fun _ h => h) (fun _ => rfl)
    · cases h
  | poll i =>
    simp only [step] at h
    split at h
    · rename_i ha
      cases h
      exact .poll ha rfl
    · cases h
  | finish i ending =>
    simp only [step] at h
    split at h
    · rename_i job l g ha
      cases h
      refine .keep ha ⟨?_, rfl, rfl, rfl⟩ (fun _ h => h) (fun _ => rfl)
      show (if job.leafSlot.isSome then job.leafSlot else none) = job.leafSlot
      cases job.leafSlot <;> rfl
    · cases h
  | releaseLeaf i =>
    simp only [step] at h
    split at h
    · rename_i job global l g ha
      cases h
      cases hs : job.leafSlot with
      | none =>
        rw [dropLeaf_none hs]
        exact .keep ha ⟨hs.symm, rfl, by simp [cost_none hs], rfl⟩ (fun _ h => h) (fun _ => rfl)
      | some path =>
        rw [dropLeaf_some hs]
        exact .giveLeaf ha hs rfl rfl (by simp [cost_some hs]) rfl (fun _ h => h) (fun _ => rfl)
    · cases h
  | releaseGlobal i =>
    simp only [step] at h
    split at h
    · rename_i job leaf l g ha
      cases h
      exact .giveGlobal ha rfl rfl rfl rfl rfl (fun _ h => h) (fun _ => rfl)
    · cases h

/-! ## One dispatch as an attempt -/

/-- The attempt is over without a task, or its task is live. -/
def Concluded (a : Attempt D) : Except Error DispatchOutcome → Prop
  | .ok (.spawned name) => ∃ job, a.stage = .live job ∧ job.commandName = name
  | outcome => a.stage = .refused outcome

theorem concluded_refusal (job : Job D) (error : TryAcquireError) (l g : Int) :
    Concluded (⟨.refused (refusal job error), l, g⟩ : Attempt D) (refusal job error) := by
  cases error with
  | noPermits => rfl
  | closed => rfl

theorem concluded_jobOf {prepared : Except Error (PreparedDispatch D)} {outcome : Except Error DispatchOutcome}
    (h : jobOf prepared = .error outcome) : Concluded (⟨.refused outcome, 0, 0⟩ : Attempt D) outcome := by
  unfold jobOf at h
  split at h
  · cases h; rfl
  · cases h; rfl
  · cases h; rfl
  · cases h
  · cases h

/-- `w` with one more attempt, and other permits. -/
def World.adding (w : World D) (permits : Permits) (a : Attempt D) : World D := ⟨permits, w.attempts ++ [a], w.ran⟩

theorem adding_permits (w : World D) (permits : Permits) (a : Attempt D) : (w.adding permits a).permits = permits := rfl

theorem adding_last (w : World D) (permits : Permits) (a : Attempt D) :
    (w.adding permits a).attempts[w.attempts.length]? = some a :=
  List.getElem?_concat_length

theorem adding_put (w : World D) (permits permits' : Permits) (a b : Attempt D) :
    { (w.adding permits a).put w.attempts.length b with permits := permits' } = w.adding permits' b := by
  unfold World.adding World.put
  simp

theorem dropLeaf_takeLeaf {job : Job D} {permits next : Permits} (h : takeLeaf job permits = .ok next) :
    dropLeaf job next = permits := by
  rcases takeLeaf_ok h with ⟨hs, rfl⟩ | ⟨path, hs, hne, rfl⟩
  · exact dropLeaf_none hs _
  · rw [dropLeaf_some hs]
    have hback : (permits.leaf path).acquire.release = permits.leaf path := by
      unfold Semaphore.acquire Semaphore.release
      have : (permits.leaf path).available - 1 + 1 = (permits.leaf path).available := by omega
      rw [this]
    simp [hback]

/-- `try_execute` takes both slots, or is refused one and leaves the permits as they were. -/
theorem tryExecute_cases (job : Job D) (permits : Permits) :
    (∃ error, takeLeaf job permits = .error error ∧ tryExecute job permits = (.error error, permits)) ∨
    (∃ withLeaf error, takeLeaf job permits = .ok withLeaf ∧ takeGlobal withLeaf = .error error ∧
      tryExecute job permits = (.error error, permits)) ∨
    ∃ withLeaf withBoth, takeLeaf job permits = .ok withLeaf ∧ takeGlobal withLeaf = .ok withBoth ∧
      tryExecute job permits = (.ok (), withBoth) := by
  unfold tryExecute
  cases ht : takeLeaf job permits with
  | error error => exact .inl ⟨error, rfl, rfl⟩
  | ok withLeaf =>
    cases hg : takeGlobal withLeaf with
    | error error =>
      refine .inr (.inl ⟨withLeaf, error, rfl, hg, ?_⟩)
      simp only [hg, dropLeaf_takeLeaf ht]
    | ok withBoth =>
      refine .inr (.inr ⟨withLeaf, withBoth, rfl, hg, ?_⟩)
      simp only [hg]

section LastAttempt

variable (framework : Framework D) (w : World D) (permits : Permits) (job : Job D) (l g : Int)

theorem enter_last (inside : Bool) :
    step framework (w.adding permits ⟨.prepared job, l, g⟩) (.enter w.attempts.length inside) =
      some (w.adding permits ⟨if inside then .entered job else .refused (.error .noAsyncRuntime), l, g⟩) := by
  simp only [step, adding_last]
  exact congrArg some (adding_put w permits permits _ _)

theorem reserve_last_error {error : TryAcquireError} (h : takeLeaf job permits = .error error) :
    step framework (w.adding permits ⟨.entered job, l, g⟩) (.reserve w.attempts.length) =
      some (w.adding permits ⟨.refused (refusal job error), l, g⟩) := by
  simp only [step, adding_last, adding_permits, h]
  exact congrArg some (adding_put w permits permits _ _)

theorem reserve_last_ok {next : Permits} (h : takeLeaf job permits = .ok next) :
    step framework (w.adding permits ⟨.entered job, l, g⟩) (.reserve w.attempts.length) =
      some (w.adding next ⟨.reserved job, l - job.cost, g⟩) := by
  simp only [step, adding_last, adding_permits, h]
  exact congrArg some (adding_put w permits next _ _)

theorem box_last_error {error : TryAcquireError} (h : takeGlobal permits = .error error) :
    step framework (w.adding permits ⟨.reserved job, l, g⟩) (.box w.attempts.length) =
      some (w.adding permits ⟨.rejected job (refusal job error), l, g⟩) := by
  simp only [step, adding_last, adding_permits, h]
  exact congrArg some (adding_put w permits permits _ _)

theorem box_last_ok {next : Permits} (h : takeGlobal permits = .ok next) :
    step framework (w.adding permits ⟨.reserved job, l, g⟩) (.box w.attempts.length) =
      some (w.adding next ⟨.boxed job, l, g - 1⟩) := by
  simp only [step, adding_last, adding_permits, h]
  exact congrArg some (adding_put w permits next _ _)

theorem drop_last (outcome : Except Error DispatchOutcome) :
    step framework (w.adding permits ⟨.rejected job outcome, l, g⟩) (.drop w.attempts.length) =
      some (w.adding (dropLeaf job permits) ⟨.refused outcome, l + job.cost, g⟩) := by
  simp only [step, adding_last]
  exact congrArg some (adding_put w permits (dropLeaf job permits) _ _)

theorem spawn_last :
    step framework (w.adding permits ⟨.boxed job, l, g⟩) (.spawn w.attempts.length) =
      some (w.adding permits ⟨.live job, l, g⟩) := by
  simp only [step, adding_last]
  exact congrArg some (adding_put w permits permits _ _)

end LastAttempt

/-- The source's `dispatch`, which no await interrupts, is one attempt's moves in a row. -/
theorem dispatch_steps (framework : Framework D) (w : World D) (event : GatewayEvent) (shardId : Option ShardId)
    (inside : Bool) :
    ∃ moves a, run (step framework) w moves =
        some (w.adding (dispatch framework event shardId inside w.permits).2 a) ∧
      Concluded a (dispatch framework event shardId inside w.permits).1 := by
  cases hj : jobOf (prepareDispatch framework event shardId) with
  | error outcome =>
    have hd : dispatch framework event shardId inside w.permits = (outcome, w.permits) := by
      simp only [dispatch, hj]
    rw [hd]
    refine ⟨[.begin event shardId], ⟨.refused outcome, 0, 0⟩, ?_, concluded_jobOf hj⟩
    simp only [run, step, hj, Option.bind_some]
    rfl
  | ok job =>
    let n := w.attempts.length
    have hbegin : step framework w (.begin event shardId) = some (w.adding w.permits ⟨.prepared job, 0, 0⟩) := by
      simp only [step, hj]
      rfl
    cases inside with
    | false =>
      have hd : dispatch framework event shardId false w.permits = (.error .noAsyncRuntime, w.permits) := by
        simp only [dispatch, hj]
        rfl
      rw [hd]
      refine ⟨[.begin event shardId, .enter n false], ⟨.refused (.error .noAsyncRuntime), 0, 0⟩, ?_, rfl⟩
      simp only [run, hbegin, n, enter_last, Option.bind_some]
      rfl
    | true =>
      rcases tryExecute_cases job w.permits with ⟨error, hl, ht⟩ | ⟨withLeaf, error, hl, hg, ht⟩ |
        ⟨withLeaf, withBoth, hl, hg, ht⟩
      · have hd : dispatch framework event shardId true w.permits = (refusal job error, w.permits) := by
          simp only [dispatch, hj, ht, if_true]
        rw [hd]
        refine ⟨[.begin event shardId, .enter n true, .reserve n], _, ?_, concluded_refusal job error 0 0⟩
        simp only [run, hbegin, n, enter_last, if_true, reserve_last_error _ _ _ _ _ _ hl, Option.bind_some]
      · have hd : dispatch framework event shardId true w.permits = (refusal job error, w.permits) := by
          simp only [dispatch, hj, ht, if_true]
        rw [hd]
        refine ⟨[.begin event shardId, .enter n true, .reserve n, .box n, .drop n], _, ?_,
          concluded_refusal job error (0 - job.cost + job.cost) 0⟩
        simp only [run, hbegin, n, enter_last, if_true, reserve_last_ok _ _ _ _ _ _ hl,
          box_last_error _ _ _ _ _ _ hg, drop_last, dropLeaf_takeLeaf hl, Option.bind_some]
      · have hd : dispatch framework event shardId true w.permits = (.ok (.spawned job.commandName), withBoth) := by
          simp only [dispatch, hj, ht, if_true]
        rw [hd]
        refine ⟨[.begin event shardId, .enter n true, .reserve n, .box n, .spawn n],
          ⟨.live job, 0 - job.cost, 0 - 1⟩, ?_, job, rfl, rfl⟩
        simp only [run, hbegin, n, enter_last, if_true, reserve_last_ok _ _ _ _ _ _ hl,
          box_last_ok _ _ _ _ _ _ hg, spawn_last, Option.bind_some]

/-! ## The invariant -/

structure Inv (framework : Framework D) (w : World D) : Prop where
  global : Conserved framework.maxConcurrentCommands w.permits.global.available Attempt.holdsGlobal w.attempts
  leaf : ∀ path, Conserved ((leafLimit framework path).getD 0) (w.permits.leaf path).available
    (Attempt.holdsLeaf path) w.attempts
  leafDelta : ∀ a ∈ w.attempts, a.leafDelta = if a.leaf.isSome then -1 else 0
  globalDelta : ∀ a ∈ w.attempts, a.globalDelta = if a.holdsGlobal then -1 else 0
  registered : ∀ a ∈ w.attempts, ∀ job, a.job = some job → job.Registered framework
  ran : ∀ i ∈ w.ran, ∃ a, w.attempts[i]? = some a ∧ a.spawned = true

theorem inv_start (framework : Framework D) (closedGlobal : Bool) (closedLeaf : List String → Bool) :
    Inv framework (World.start framework closedGlobal closedLeaf) := by
  refine ⟨rfl, fun path => rfl, ?_, ?_, ?_, ?_⟩
  · intro a ha; cases ha
  · intro a ha; cases ha
  · intro a ha; cases ha
  · intro i hi; cases hi

theorem forall_set {P : Attempt D → Prop} {attempts : List (Attempt D)} {i : Nat} {b : Attempt D}
    (h : ∀ a ∈ attempts, P a) (hb : P b) : ∀ a ∈ attempts.set i b, P a := by
  intro a ha
  rcases List.mem_or_eq_of_mem_set ha with ha | rfl
  · exact h a ha
  · exact hb

theorem ran_put {w : World D} {i : Nat} {a b : Attempt D}
    (h : ∀ j ∈ w.ran, ∃ a, w.attempts[j]? = some a ∧ a.spawned = true) (ha : w.attempts[i]? = some a)
    (hab : a.spawned = true → b.spawned = true) :
    ∀ j ∈ w.ran, ∃ a, (w.attempts.set i b)[j]? = some a ∧ a.spawned = true := by
  intro j hj
  obtain ⟨c, hc, hs⟩ := h j hj
  by_cases hij : i = j
  · subst hij
    rw [ha] at hc
    cases hc
    exact ⟨b, List.getElem?_set_self (List.getElem?_eq_some_iff.mp ha).1, hab hs⟩
  · exact ⟨c, by rw [List.getElem?_set_ne hij]; exact hc, hs⟩

theorem holdsLeaf_eq {a b : Attempt D} (h : b.leaf = a.leaf) (path : List String) : b.holdsLeaf path = a.holdsLeaf path := by
  unfold Attempt.holdsLeaf
  rw [h]

/-- One leaf's permits change with one attempt; the other leaves' are as they were. -/
theorem leaf_update {framework : Framework D} {w : World D} {i : Nat} {a b : Attempt D} {path : List String}
    {slots : Semaphore}
    (hi : ∀ path, Conserved ((leafLimit framework path).getD 0) (w.permits.leaf path).available
      (Attempt.holdsLeaf path) w.attempts)
    (ha : w.attempts[i]? = some a)
    (hpath : Conserved ((leafLimit framework path).getD 0) slots.available (Attempt.holdsLeaf path) (w.attempts.set i b))
    (hother : ∀ other ≠ path, b.holdsLeaf other = a.holdsLeaf other) (other : List String) :
    Conserved ((leafLimit framework other).getD 0) (Function.update w.permits.leaf path slots other).available
      (Attempt.holdsLeaf other) (w.attempts.set i b) := by
  by_cases ho : other = path
  · subst ho
    rw [Function.update_self]
    exact hpath
  · rw [Function.update_of_ne ho]
    exact (hi other).keep ha (hother other ho)

theorem inv_effect {framework : Framework D} {w w' : World D} (hi : Inv framework w) (h : Effect framework w w') :
    Inv framework w' := by
  cases h with
  | @begin a hleaf hglobal hld hgd hreg =>
    refine ⟨hi.global.concat hglobal, fun path => (hi.leaf path).concat (by simp [Attempt.holdsLeaf, hleaf]), ?_, ?_, ?_, ?_⟩
    · simp only [List.forall_mem_append, List.forall_mem_singleton]
      exact ⟨hi.leafDelta, by rw [hld, hleaf]; rfl⟩
    · simp only [List.forall_mem_append, List.forall_mem_singleton]
      exact ⟨hi.globalDelta, by rw [hgd, hglobal]; rfl⟩
    · simp only [List.forall_mem_append, List.forall_mem_singleton]
      exact ⟨hi.registered, hreg⟩
    · intro i hr
      obtain ⟨c, hc, hs⟩ := hi.ran i hr
      exact ⟨c, List.getElem?_append_left (List.getElem?_eq_some_iff.mp hc).1 ▸ hc, hs⟩
  | @poll i a ha hs =>
    refine ⟨hi.global, hi.leaf, hi.leafDelta, hi.globalDelta, hi.registered, ?_⟩
    simp only [List.forall_mem_append, List.forall_mem_singleton]
    exact ⟨hi.ran, a, ha, hs⟩
  | @keep i a b ha hk hjob hspawn =>
    have hm := List.mem_of_getElem? ha
    refine ⟨hi.global.keep ha hk.global, fun path => (hi.leaf path).keep ha (holdsLeaf_eq hk.leaf path),
      forall_set hi.leafDelta ?_, forall_set hi.globalDelta ?_, forall_set hi.registered ?_, ran_put hi.ran ha hspawn⟩
    · rw [hk.leafDelta, hk.leaf]; exact hi.leafDelta a hm
    · rw [hk.globalDelta, hk.global]; exact hi.globalDelta a hm
    · exact fun job hj => hi.registered a hm job (hjob job hj)
  | @takeLeaf i a b path ha hne hleaf hleaf' hglobal hld hgd hjob hspawn =>
    have hm := List.mem_of_getElem? ha
    have htaken := (hi.leaf path).take ha hne (b := b) (by simp [Attempt.holdsLeaf, hleaf])
      (by simp [Attempt.holdsLeaf, hleaf'])
    refine ⟨hi.global.keep ha hglobal, leaf_update hi.leaf ha htaken ?_, forall_set hi.leafDelta ?_,
      forall_set hi.globalDelta ?_, forall_set hi.registered ?_,
      ran_put hi.ran ha (fun h => by rw [hspawn] at h; cases h)⟩
    · intro other ho
      simp [Attempt.holdsLeaf, hleaf, hleaf', Ne.symm ho]
    · rw [hld, hi.leafDelta a hm, hleaf, hleaf']; rfl
    · rw [hgd, hglobal]; exact hi.globalDelta a hm
    · exact fun job hj => hi.registered a hm job (hjob job hj)
  | @takeGlobal i a b ha hne hna hb hleaf hld hgd hjob hspawn =>
    have hm := List.mem_of_getElem? ha
    refine ⟨hi.global.take ha hne hna hb, fun path => (hi.leaf path).keep ha (holdsLeaf_eq hleaf path),
      forall_set hi.leafDelta ?_, forall_set hi.globalDelta ?_, forall_set hi.registered ?_,
      ran_put hi.ran ha (fun h => by rw [hspawn] at h; cases h)⟩
    · rw [hld, hleaf]; exact hi.leafDelta a hm
    · rw [hgd, hi.globalDelta a hm, hna, hb]; rfl
    · exact fun job hj => hi.registered a hm job (hjob job hj)
  | @giveLeaf i a b path ha hleaf hleaf' hglobal hld hgd hjob hspawn =>
    have hm := List.mem_of_getElem? ha
    have hgiven := (hi.leaf path).give ha (b := b) (by simp [Attempt.holdsLeaf, hleaf])
      (by simp [Attempt.holdsLeaf, hleaf'])
    refine ⟨hi.global.keep ha hglobal, leaf_update hi.leaf ha hgiven ?_, forall_set hi.leafDelta ?_,
      forall_set hi.globalDelta ?_, forall_set hi.registered ?_, ran_put hi.ran ha hspawn⟩
    · intro other ho
      simp [Attempt.holdsLeaf, hleaf, hleaf', Ne.symm ho]
    · rw [hld, hi.leafDelta a hm, hleaf, hleaf']; rfl
    · rw [hgd, hglobal]; exact hi.globalDelta a hm
    · exact fun job hj => hi.registered a hm job (hjob job hj)
  | @giveGlobal i a b ha hha hb hleaf hld hgd hjob hspawn =>
    have hm := List.mem_of_getElem? ha
    refine ⟨hi.global.give ha hha hb, fun path => (hi.leaf path).keep ha (holdsLeaf_eq hleaf path),
      forall_set hi.leafDelta ?_, forall_set hi.globalDelta ?_, forall_set hi.registered ?_, ran_put hi.ran ha hspawn⟩
    · rw [hld, hleaf]; exact hi.leafDelta a hm
    · rw [hgd, hi.globalDelta a hm, hha, hb]; rfl
    · exact fun job hj => hi.registered a hm job (hjob job hj)

theorem inv_run {framework : Framework D} {closedGlobal : Bool} {closedLeaf : List String → Bool} {moves : List Move}
    {w : World D} (h : run (step framework) (World.start framework closedGlobal closedLeaf) moves = some w) :
    Inv framework w :=
  run_invariant (I := Inv framework) (fun _ _ _ hi hs => inv_effect hi (step_effect hs)) h
    (inv_start framework closedGlobal closedLeaf)

theorem running_holds {a : Attempt D} (h : a.running = true) : a.holdsGlobal = true := by
  unfold Attempt.running at h
  split at h
  · rename_i hs
    unfold Attempt.holdsGlobal
    rw [hs]
  · cases h

/-- A task that runs a limited leaf's command has one of its permits. -/
theorem runningCommand_holds {framework : Framework D} {a : Attempt D} {path : List String} {limit : Nat}
    (hreg : ∀ job, a.job = some job → job.Registered framework) (hlimit : leafLimit framework path = some limit)
    (h : a.runningCommand path = true) : a.holdsLeaf path = true := by
  unfold Attempt.runningCommand at h
  split at h
  · rename_i command hs
    have hpath : command.context.commandPath = path := beq_iff_eq.mp h
    have hslots : command.policy.commandSlots = leafLimit framework command.context.commandPath :=
      hreg (.command command) (by unfold Attempt.job; rw [hs])
    have hleaf : a.leaf = some path := by
      unfold Attempt.leaf
      rw [hs]
      show command.policy.commandSlots.map (fun _ => command.context.commandPath) = some path
      rw [hslots, hpath, hlimit]
      rfl
    unfold Attempt.holdsLeaf
    rw [hleaf]
    exact beq_self_eq_true _
  · cases h

/-- What a refused attempt has and has done: nothing. -/
theorem refused_holds {a : Attempt D} {outcome : Except Error DispatchOutcome} (h : a.stage = .refused outcome) :
    a.leaf = none ∧ a.holdsGlobal = false ∧ a.spawned = false := by
  unfold Attempt.leaf Attempt.holdsGlobal Attempt.spawned
  rw [h]
  exact ⟨rfl, rfl, rfl⟩

theorem inProgress_holds {a : Attempt D} (h : a.inProgress = false) (path : List String) :
    a.holdsGlobal = false ∧ a.holdsLeaf path = false := by
  obtain ⟨stage, l, g⟩ := a
  cases stage with
  | prepared => exact ⟨rfl, rfl⟩
  | entered => exact ⟨rfl, rfl⟩
  | refused => exact ⟨rfl, rfl⟩
  | reserved => cases h
  | boxed => cases h
  | rejected => cases h
  | live => cases h
  | closing job leaf global =>
    obtain ⟨hleaf, hglobal⟩ := Bool.or_eq_false_iff.mp h
    subst hleaf hglobal
    exact ⟨rfl, rfl⟩

/-- After any run, of every semaphore: the free permits and the attempts that have one
    are the limit, and no more tasks run than that. A refused attempt has moved neither
    count, can be left out of both balances and has run nothing. With no task live and
    no attempt under way every permit is free. -/
theorem permits_conserved (framework : Framework D) (closedGlobal : Bool) (closedLeaf : List String → Bool)
    (moves : List Move) (w : World D)
    (h : run (step framework) (World.start framework closedGlobal closedLeaf) moves = some w) :
    Conserved framework.maxConcurrentCommands w.permits.global.available Attempt.holdsGlobal w.attempts ∧
    w.attempts.countP Attempt.running ≤ framework.maxConcurrentCommands ∧
    (∀ path limit, leafLimit framework path = some limit →
      Conserved limit (w.permits.leaf path).available (Attempt.holdsLeaf path) w.attempts ∧
        w.attempts.countP (Attempt.runningCommand path) ≤ limit) ∧
    (∀ (i : Nat) a outcome, w.attempts[i]? = some a → a.stage = .refused outcome →
      a.leafDelta = 0 ∧ a.globalDelta = 0 ∧ i ∉ w.ran ∧
      Conserved framework.maxConcurrentCommands w.permits.global.available Attempt.holdsGlobal (w.attempts.eraseIdx i) ∧
      ∀ path limit, leafLimit framework path = some limit →
        Conserved limit (w.permits.leaf path).available (Attempt.holdsLeaf path) (w.attempts.eraseIdx i)) ∧
    ((∀ a ∈ w.attempts, a.inProgress = false) →
      w.permits.global.available = framework.maxConcurrentCommands ∧
      ∀ path limit, leafLimit framework path = some limit → (w.permits.leaf path).available = limit) := by
  have hi := inv_run h
  have hleaf : ∀ path limit, leafLimit framework path = some limit →
      Conserved limit (w.permits.leaf path).available (Attempt.holdsLeaf path) w.attempts := by
    intro path limit hlimit
    have := hi.leaf path
    rwa [hlimit] at this
  refine ⟨hi.global, ?_, fun path limit hlimit => ⟨hleaf path limit hlimit, ?_⟩, ?_, fun hidle => ⟨?_, ?_⟩⟩
  · calc w.attempts.countP Attempt.running
        ≤ w.attempts.countP Attempt.holdsGlobal := List.countP_mono_left fun a _ => running_holds
      _ ≤ framework.maxConcurrentCommands := hi.global.le
  · calc w.attempts.countP (Attempt.runningCommand path)
        ≤ w.attempts.countP (Attempt.holdsLeaf path) :=
          List.countP_mono_left fun a ha => runningCommand_holds (hi.registered a ha) hlimit
      _ ≤ limit := (hleaf path limit hlimit).le
  · intro i a outcome ha hs
    have hm := List.mem_of_getElem? ha
    obtain ⟨hnone, hnot, hspawn⟩ := refused_holds hs
    refine ⟨?_, ?_, ?_, hi.global.erase ha hnot, ?_⟩
    · rw [hi.leafDelta a hm, hnone]; rfl
    · rw [hi.globalDelta a hm, hnot]; rfl
    · intro hr
      obtain ⟨b, hb, hbs⟩ := hi.ran i hr
      rw [ha] at hb
      cases hb
      rw [hspawn] at hbs
      cases hbs
    · intro path limit hlimit
      refine (hleaf path limit hlimit).erase ha ?_
      unfold Attempt.holdsLeaf
      rw [hnone]
      rfl
  · exact hi.global.free fun a ha => (inProgress_holds (hidle a ha) []).1
  · intro path limit hlimit
    exact (hleaf path limit hlimit).free fun a ha => (inProgress_holds (hidle a ha) path).2

/-- `slow` runs one at a time: the second of two invocations is refused. -/
theorem permits_conserved_slow :
    let slow : SlashCommand Unit :=
      .leaf ⟨"slow", "Exercise concurrency limits", []⟩
        { handler := fun _ data => (.ok (), data), policy := { maxConcurrency := some 1 } }
    let commandData : ApplicationCommandInteractionData := ⟨"slow", .chatInput, []⟩
    let interaction : Interaction := ⟨1, 2, .applicationCommand, "token", none, none, none, none, .ok (some commandData)⟩
    let event := interactionEvent interaction
    ∃ (framework : Framework Unit) (w : World Unit) (a : Attempt Unit), framework.registry.get "slow" = some slow ∧
      run (step framework) (World.start framework false fun _ => false)
        [.begin event none, .enter 0 true, .reserve 0, .begin event none, .box 0, .enter 1 true, .reserve 1, .spawn 0,
          .poll 0] = some w ∧
      w.attempts[1]? = some a ∧ a.stage = .refused (.ok (.atCapacity "slow")) ∧ a.leafDelta = 0 ∧ 1 ∉ w.ran := by
  intro slow commandData interaction event
  obtain ⟨framework, hget⟩ := exists_framework slow rfl
  let prepared : PreparedCommand Unit :=
    ⟨"slow", fun _ data => (.ok (), data), { maxConcurrency := some 1 }, ⟨interaction, commandData, ["slow"], [], none⟩,
      framework.beforeHooks, framework.afterHooks, framework.errorHandler⟩
  have hp : prepareDispatch framework event none = .ok (.command prepared) := by
    rw [@prepareDispatch_registered Unit framework interaction none commandData slow (.inl rfl) rfl rfl hget]
    rfl
  have hj : jobOf (prepareDispatch framework event none) = .ok (.command prepared) := by rw [hp]; rfl
  have hslot : Job.leafSlot (.command prepared) = some ["slow"] := rfl
  have hlimit : leafLimit framework ["slow"] = some 1 := (jobOf_registered hj).symm
  have hfree : framework.maxConcurrentCommands ≠ 0 := framework.limited
  have hrun : ∃ w a, run (step framework) (World.start framework false fun _ => false)
      [.begin event none, .enter 0 true, .reserve 0, .begin event none, .box 0, .enter 1 true, .reserve 1, .spawn 0,
        .poll 0] = some w ∧ w.attempts[1]? = some a ∧ a.stage = .refused (.ok (.atCapacity "slow")) := by
    simp [run, step, hj, World.start, World.put, takeLeaf, takeGlobal, Semaphore.tryAcquire, Semaphore.acquire, hslot,
      hlimit, hfree, refusal, Job.commandName, prepared]
  obtain ⟨w, a, hw, ha, hs⟩ := hrun
  obtain ⟨hleaf, -, hran, -⟩ := (permits_conserved framework false (fun _ => false) _ w hw).2.2.2.1 1 a _ ha hs
  exact ⟨framework, w, a, hget, hw, ha, hs, hleaf, hran⟩

end GloamCommands.Dispatch
