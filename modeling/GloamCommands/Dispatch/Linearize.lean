/-
  GloamCommands.Dispatch.Linearize — whether concurrent dispatches are refused as
  sequential ones would be (`try_execute`, `dispatch`, `dispatch_shard` in
  crates/gloam-commands/src/framework.rs).

  Calls. A call takes its leaf's slot, then a global one, and gives the leaf's back when
  there is no global one; its response is `Spawned` or `AtCapacity`. A completion is
  invoked when a task ends and has responded when its permits are back. The history of a
  run lists what calls and completions show, with all their moves interleaved.

  Sequential calls. `Slots` counts the free slots of the framework and of each leaf; a
  call is spawned exactly when its leaf, if limited, and the framework have one.

  An attempt can have a slot without executing: the leaf's, before it tries for the
  global one or until it has given it back, and one of the two of a task that is ending.
  - `refusals_linearize`: a run in which no call is refused for such a slot alone is one
    of sequential calls.
  - `refused_below_capacity`: three calls, one of them refused with nothing executing.
-/

import GloamCommands.Dispatch.Drive
import GloamCommands.Lib.Linear

namespace GloamCommands.Dispatch

open Lib (Conserved run run_along Along Observed Precedes Linearizes)

variable {D : Type}

/-! ## Sequential calls -/

/-- A call or a task's completion, of the attempt at an index, with the limited leaf that
    it needs a slot of. -/
inductive Operation where
  | call (attempt : Nat) (slot : Option (List String))
  | completion (attempt : Nat) (slot : Option (List String))
  deriving DecidableEq, Repr

def Operation.attempt : Operation → Nat
  | call attempt _ => attempt
  | completion attempt _ => attempt

inductive Reply where
  | spawned
  | atCapacity
  | completed
  deriving DecidableEq, Repr

structure Slots where
  global : Nat
  leaf : List String → Nat

namespace Slots

def free (s : Slots) : Option (List String) → Bool
  | none => s.global != 0
  | some path => s.global != 0 && s.leaf path != 0

def take (s : Slots) (slot : Option (List String)) : Slots where
  global := s.global - 1
  leaf path := if slot = some path then s.leaf path - 1 else s.leaf path

def give (s : Slots) (slot : Option (List String)) : Slots where
  global := s.global + 1
  leaf path := if slot = some path then s.leaf path + 1 else s.leaf path

/-- One operation at a time. -/
def turn (s : Slots) : Operation × Reply → Option Slots
  | (.call _ slot, .spawned) => if s.free slot then some (s.take slot) else none
  | (.call _ slot, .atCapacity) => if s.free slot then none else some s
  | (.completion _ slot, .completed) => some (s.give slot)
  | _ => none

def start (framework : Framework D) : Slots where
  global := framework.maxConcurrentCommands
  leaf path := (leafLimit framework path).getD 0

end Slots

/-! ## Histories -/

/-- What shows of a move that takes the attempt at `i` from one stage to another. A call
    that ends in an error responds neither `Spawned` nor `AtCapacity`. -/
def shown (i : Nat) : Option (Stage D) → Option (Stage D) → List (Observed Operation Reply)
  | none, some (.prepared job) => [.invoke (.call i job.leafSlot)]
  | some (.entered job), some (.refused (.ok (.atCapacity _))) => [.respond (.call i job.leafSlot) .atCapacity]
  | some (.rejected job _), some (.refused (.ok (.atCapacity _))) => [.respond (.call i job.leafSlot) .atCapacity]
  | some (.boxed job), some (.live _) => [.respond (.call i job.leafSlot) .spawned]
  | some (.live job), some (.closing _ _ _) => [.invoke (.completion i job.leafSlot)]
  | some (.closing job _ _), some (.closing _ false false) => [.respond (.completion i job.leafSlot) .completed]
  | _, _ => []

def Move.attempt (w : World D) : Move → Nat
  | .begin _ _ => w.attempts.length
  | .enter i _ => i
  | .reserve i => i
  | .box i => i
  | .drop i => i
  | .spawn i => i
  | .poll i => i
  | .finish i _ => i
  | .releaseLeaf i => i
  | .releaseGlobal i => i

/-- The machine of `Dispatch.Permits` with the history of its run. -/
structure Recorded (D : Type) where
  world : World D
  history : List (Observed Operation Reply)

def World.stageAt (w : World D) (i : Nat) : Option (Stage D) := (w.attempts[i]?).map Attempt.stage

def recordedStep (framework : Framework D) (r : Recorded D) (move : Move) : Option (Recorded D) :=
  (step framework r.world move).map fun w =>
    ⟨w, r.history ++ shown (move.attempt r.world) (r.world.stageAt (move.attempt r.world)) (w.stageAt (move.attempt r.world))⟩

def Recorded.start (framework : Framework D) : Recorded D := ⟨World.start framework false fun _ => false, []⟩

/-! ## Executing attempts -/

def Stage.executing : Stage D → Option (Job D)
  | .boxed job => some job
  | .live job => some job
  | .closing job leaf global => if global && (leaf || job.leafSlot.isNone) then some job else none
  | _ => none

def Attempt.whole (a : Attempt D) : Bool := a.stage.executing.isSome

def Attempt.wholeOn (path : List String) (a : Attempt D) : Bool := a.stage.executing.bind Job.leafSlot == some path

/-- If the move is refused a slot, then those who have the slots of that semaphore have
    all of theirs; or such attempts fill the framework anyway. Not every refusal that is not
    earned does harm: a global slot of an ending task may be what is missing while its leaf's
    is back and nobody has taken that. -/
def Earned (framework : Framework D) (w : World D) : Move → Prop
  | .reserve i => ∀ job path, w.stageAt i = some (.entered job) → job.leafSlot = some path →
      (w.permits.leaf path).available = 0 →
      (∀ a ∈ w.attempts, a.holdsLeaf path = true → a.whole = true) ∨
        framework.maxConcurrentCommands ≤ w.attempts.countP Attempt.whole
  | .box _ => w.permits.global.available = 0 → ∀ a ∈ w.attempts, a.holdsGlobal = true → a.whole = true
  | _ => True

/-! ## What a move does to one attempt -/

/-- The stages before and after a move of an attempt, under the permits it finds. -/
inductive Turn (permits : Permits) : Move → Stage D → Stage D → Prop
  | enter {i : Nat} {job : Job D} : Turn permits (.enter i true) (.prepared job) (.entered job)
  | outside {i : Nat} {job : Job D} : Turn permits (.enter i false) (.prepared job) (.refused (.error .noAsyncRuntime))
  | full {i : Nat} {job : Job D} {error : TryAcquireError} : takeLeaf job permits = .error error →
      Turn permits (.reserve i) (.entered job) (.refused (refusal job error))
  | reserve {i : Nat} {job : Job D} : Turn permits (.reserve i) (.entered job) (.reserved job)
  | reject {i : Nat} {job : Job D} {error : TryAcquireError} : takeGlobal permits = .error error →
      Turn permits (.box i) (.reserved job) (.rejected job (refusal job error))
  | box {i : Nat} {job : Job D} : permits.global.available ≠ 0 → Turn permits (.box i) (.reserved job) (.boxed job)
  | drop {i : Nat} {job : Job D} {outcome : Except Error DispatchOutcome} :
      Turn permits (.drop i) (.rejected job outcome) (.refused outcome)
  | spawn {i : Nat} {job : Job D} : Turn permits (.spawn i) (.boxed job) (.live job)
  | poll {i : Nat} {job : Job D} : Turn permits (.poll i) (.live job) (.live job)
  | finish {i : Nat} {job : Job D} {ending : Ending} :
      Turn permits (.finish i ending) (.live job) (.closing job job.leafSlot.isSome true)
  | release {move : Move} {job : Job D} {leaf global leaf' global' : Bool} :
      (leaf' = true → leaf = true) → (global' = true → global = true) →
      Turn permits move (.closing job leaf global) (.closing job leaf' global')

theorem step_turn {framework : Framework D} {w w' : World D} {move : Move} (h : step framework w move = some w') :
    (∃ stage, (stage.executing = none ∧ ((∃ outcome, stage = .refused outcome) ∨ ∃ job, stage = .prepared job)) ∧
      move.attempt w = w.attempts.length ∧ w'.attempts = w.attempts ++ [⟨stage, 0, 0⟩]) ∨
    ∃ before after l g l' g', w.attempts[move.attempt w]? = some ⟨before, l, g⟩ ∧
      w'.attempts = w.attempts.set (move.attempt w) ⟨after, l', g'⟩ ∧ Turn w.permits move before after := by
  cases move with
  | begin event shardId =>
    cases h
    refine .inl ⟨_, ?_, rfl, rfl⟩
    rcases jobOf (prepareDispatch framework event shardId) with outcome | job
    · exact ⟨rfl, .inl ⟨outcome, rfl⟩⟩
    · exact ⟨rfl, .inr ⟨job, rfl⟩⟩
  | enter i inside =>
    simp only [step] at h
    split at h
    · rename_i ha
      cases h
      cases inside
      · exact .inr ⟨_, _, _, _, _, _, ha, rfl, .outside⟩
      · exact .inr ⟨_, _, _, _, _, _, ha, rfl, .enter⟩
    · cases h
  | reserve i =>
    simp only [step] at h
    split at h
    · rename_i job l g ha
      rcases ht : takeLeaf job w.permits with error | permits <;> rw [ht] at h <;> cases h
      · exact .inr ⟨_, _, _, _, _, _, ha, rfl, .full ht⟩
      · exact .inr ⟨_, _, _, _, _, _, ha, rfl, .reserve⟩
    · cases h
  | box i =>
    simp only [step] at h
    split at h
    · rename_i job l g ha
      rcases ht : takeGlobal w.permits with error | permits <;> rw [ht] at h <;> cases h
      · exact .inr ⟨_, _, _, _, _, _, ha, rfl, .reject ht⟩
      · exact .inr ⟨_, _, _, _, _, _, ha, rfl, .box (takeGlobal_ok ht).1⟩
    · cases h
  | drop i =>
    simp only [step] at h
    split at h
    · rename_i ha
      cases h
      exact .inr ⟨_, _, _, _, _, _, ha, rfl, .drop⟩
    · cases h
  | spawn i =>
    simp only [step] at h
    split at h
    · rename_i ha
      cases h
      exact .inr ⟨_, _, _, _, _, _, ha, rfl, .spawn⟩
    · cases h
  | poll i =>
    simp only [step] at h
    split at h
    · rename_i ha
      cases h
      obtain ⟨hi, he⟩ := List.getElem?_eq_some_iff.mp ha
      exact .inr ⟨_, _, _, _, _, _, ha, (by rw [← he]; exact (List.set_getElem_self hi).symm), .poll⟩
    · cases h
  | finish i ending =>
    simp only [step] at h
    split at h
    · rename_i ha
      cases h
      exact .inr ⟨_, _, _, _, _, _, ha, rfl, .finish⟩
    · cases h
  | releaseLeaf i =>
    simp only [step] at h
    split at h
    · rename_i ha
      cases h
      exact .inr ⟨_, _, _, _, _, _, ha, rfl, .release (fun _ => rfl) id⟩
    · cases h
  | releaseGlobal i =>
    simp only [step] at h
    split at h
    · rename_i ha
      cases h
      exact .inr ⟨_, _, _, _, _, _, ha, rfl, .release id fun _ => rfl⟩
    · cases h

theorem effect_open {framework : Framework D} {w w' : World D} (ho : w.permits.Open) (h : Effect framework w w') :
    w'.permits.Open := by
  cases h with
  | begin => exact ho
  | poll => exact ho
  | keep => exact ho
  | takeLeaf => exact open_update ho _ rfl
  | takeGlobal => exact ⟨ho.1, ho.2⟩
  | giveLeaf => exact open_update ho _ rfl
  | giveGlobal => exact ⟨ho.1, ho.2⟩

/-! ## Counting the attempts that have all of their slots -/

structure Counts (framework : Framework D) (attempts : List (Attempt D)) (s : Slots) : Prop where
  global : Conserved framework.maxConcurrentCommands s.global Attempt.whole attempts
  leaf : ∀ path, Conserved ((leafLimit framework path).getD 0) (s.leaf path) (Attempt.wholeOn path) attempts

theorem free_global {s : Slots} {slot : Option (List String)} (h : s.free slot = true) : s.global ≠ 0 := by
  rcases slot with _ | path
  · simpa [Slots.free] using h
  · exact (by simpa [Slots.free] using h : s.global ≠ 0 ∧ s.leaf path ≠ 0).1

theorem turn_spawned {s : Slots} {slot : Option (List String)} (h : s.free slot = true) (i : Nat) :
    s.turn (.call i slot, .spawned) = some (s.take slot) :=
  if_pos h

theorem turn_refused {s : Slots} {slot : Option (List String)} (h : s.free slot = false) (i : Nat) :
    s.turn (.call i slot, .atCapacity) = some s :=
  if_neg (ne_true_of_eq_false h)

theorem free_leaf {s : Slots} {path : List String} (h : s.free (some path) = true) : s.leaf path ≠ 0 :=
  (by simpa [Slots.free] using h : s.global ≠ 0 ∧ s.leaf path ≠ 0).2

namespace Counts

variable {framework : Framework D} {attempts : List (Attempt D)} {s : Slots} {i : Nat} {a b : Attempt D} {job : Job D}

theorem start (framework : Framework D) : Counts framework [] (Slots.start framework) := ⟨rfl, fun _ => rfl⟩

theorem concat (h : Counts framework attempts s) (hb : b.stage.executing = none) : Counts framework (attempts ++ [b]) s :=
  ⟨h.global.concat (by simp [Attempt.whole, hb]), fun path => (h.leaf path).concat (by simp [Attempt.wholeOn, hb])⟩

theorem keep (h : Counts framework attempts s) (ha : attempts[i]? = some a)
    (hab : b.stage.executing = a.stage.executing) : Counts framework (attempts.set i b) s :=
  ⟨h.global.keep ha (by unfold Attempt.whole; rw [hab]), fun path => (h.leaf path).keep ha (by unfold Attempt.wholeOn; rw [hab])⟩

theorem take (h : Counts framework attempts s) (ha : attempts[i]? = some a) (hnone : a.stage.executing = none)
    (hb : b.stage.executing = some job) (hfree : s.free job.leafSlot = true) :
    Counts framework (attempts.set i b) (s.take job.leafSlot) := by
  refine ⟨h.global.take ha (free_global hfree) (by simp [Attempt.whole, hnone]) (by simp [Attempt.whole, hb]),
    fun path => ?_⟩
  by_cases hslot : job.leafSlot = some path
  · simp only [Slots.take, hslot, if_true]
    rw [hslot] at hfree
    exact (h.leaf path).take ha (free_leaf hfree) (by simp [Attempt.wholeOn, hnone]) (by simp [Attempt.wholeOn, hb, hslot])
  · simp only [Slots.take, if_neg hslot]
    exact (h.leaf path).keep ha (by simp [Attempt.wholeOn, hnone, hb, hslot])

theorem give (h : Counts framework attempts s) (ha : attempts[i]? = some a) (hjob : a.stage.executing = some job)
    (hb : b.stage.executing = none) : Counts framework (attempts.set i b) (s.give job.leafSlot) := by
  refine ⟨h.global.give ha (by simp [Attempt.whole, hjob]) (by simp [Attempt.whole, hb]), fun path => ?_⟩
  by_cases hslot : job.leafSlot = some path
  · simp only [Slots.give, hslot, if_true]
    exact (h.leaf path).give ha (by simp [Attempt.wholeOn, hjob, hslot]) (by simp [Attempt.wholeOn, hb])
  · simp only [Slots.give, if_neg hslot]
    exact (h.leaf path).keep ha (by simp [Attempt.wholeOn, hjob, hb, hslot])

end Counts

theorem whole_holds {a : Attempt D} (h : a.whole = true) : a.holdsGlobal = true := by
  obtain ⟨stage, l, g⟩ := a
  cases stage with
  | boxed => rfl
  | live => rfl
  | closing job leaf global =>
    cases global with
    | true => rfl
    | false => cases h
  | _ => cases h

theorem wholeOn_holds {path : List String} {a : Attempt D} (h : a.wholeOn path = true) : a.holdsLeaf path = true := by
  obtain ⟨stage, l, g⟩ := a
  cases stage with
  | boxed => exact h
  | live => exact h
  | closing job leaf global =>
    cases hslot : job.leafSlot with
    | none => cases leaf <;> cases global <;> simp [Attempt.wholeOn, Stage.executing, hslot] at h
    | some path' =>
      cases leaf <;> cases global <;> simp [Attempt.wholeOn, Attempt.holdsLeaf, Attempt.leaf, Stage.executing, hslot] at h ⊢
      exact h
  | _ => cases h

/-- Who has all of its slots and one of the leaf's executes on that leaf. -/
theorem holds_wholeOn {path : List String} {a : Attempt D} (hleaf : a.holdsLeaf path = true) (h : a.whole = true) :
    a.wholeOn path = true := by
  obtain ⟨stage, l, g⟩ := a
  cases stage with
  | boxed => exact hleaf
  | live => exact hleaf
  | closing job leaf global =>
    cases leaf with
    | false => cases hleaf
    | true =>
      cases global with
      | true => exact hleaf
      | false => cases h
  | _ => cases h

section Legal

variable {framework : Framework D} {w : World D} {s : Slots} (hi : Inv framework w) (hc : Counts framework w.attempts s)
include hi hc

/-- An attempt that has got a global slot takes its turn: sequentially it has room. -/
theorem free_of_box {i : Nat} {job : Job D} {l g : Int} (ha : w.attempts[i]? = some ⟨.reserved job, l, g⟩)
    (hne : w.permits.global.available ≠ 0) : s.free job.leafSlot = true := by
  have hglobal : s.global ≠ 0 := by
    have hle : w.attempts.countP Attempt.whole ≤ w.attempts.countP Attempt.holdsGlobal :=
      List.countP_mono_left fun a _ => whole_holds
    have hfree := hi.global
    have htaken := hc.global
    unfold Conserved at hfree htaken
    omega
  cases hslot : job.leafSlot with
  | none => simp [Slots.free, hglobal]
  | some path =>
    have hlt : w.attempts.countP (Attempt.wholeOn path) < w.attempts.countP (Attempt.holdsLeaf path) := by
      refine Lib.countP_lt (fun a _ => wholeOn_holds) ha rfl ?_
      simp [Attempt.holdsLeaf, Attempt.leaf, hslot]
    have hfree := hi.leaf path
    have htaken := hc.leaf path
    unfold Conserved at hfree htaken
    have hleaf : s.leaf path ≠ 0 := by omega
    simp [Slots.free, hglobal, hleaf]

/-- With the free slots of a leaf and those who do not execute apart, none is left. -/
theorem not_free_of_leaf {path : List String} (hzero : (w.permits.leaf path).available = 0)
    (hearned : (∀ a ∈ w.attempts, a.holdsLeaf path = true → a.whole = true) ∨
      framework.maxConcurrentCommands ≤ w.attempts.countP Attempt.whole) : s.free (some path) = false := by
  rcases hearned with hall | hfull
  · have hle : w.attempts.countP (Attempt.holdsLeaf path) ≤ w.attempts.countP (Attempt.wholeOn path) :=
      List.countP_mono_left fun a ha hleaf => holds_wholeOn hleaf (hall a ha hleaf)
    have hfree := hi.leaf path
    have htaken := hc.leaf path
    unfold Conserved at hfree htaken
    have hleaf : s.leaf path = 0 := by omega
    simp [Slots.free, hleaf]
  · have htaken := hc.global
    unfold Conserved at htaken
    have hglobal : s.global = 0 := by omega
    simp [Slots.free, hglobal]

theorem not_free_of_global (hzero : w.permits.global.available = 0)
    (hall : ∀ a ∈ w.attempts, a.holdsGlobal = true → a.whole = true) (slot : Option (List String)) :
    s.free slot = false := by
  have hle : w.attempts.countP Attempt.holdsGlobal ≤ w.attempts.countP Attempt.whole := List.countP_mono_left hall
  have hfree := hi.global
  have htaken := hc.global
  unfold Conserved at hfree htaken
  have hglobal : s.global = 0 := by omega
  cases slot <;> simp [Slots.free, hglobal]

end Legal

/-! ## What has been taken of an attempt's operations -/

structure Pending (history : List (Observed Operation Reply)) (order : List (Operation × Reply)) (operation : Operation) :
    Prop where
  invoked : .invoke operation ∈ history
  untaken : operation ∉ order.map Prod.fst

/-- A completion is taken with the first slot that is back, when its attempt is no more whole. -/
def Completing (history : List (Observed Operation Reply)) (order : List (Operation × Reply)) (operation : Operation) :
    Bool → Prop
  | true => Pending history order operation
  | false => (operation, .completed) ∈ order

/-- A call is taken when it gets its global slot or is refused one of the two. -/
def Linked (history : List (Observed Operation Reply)) (order : List (Operation × Reply)) (i : Nat) : Stage D → Prop
  | .prepared job =>
    Pending history order (.call i job.leafSlot) ∧ .invoke (.completion i job.leafSlot) ∉ history
  | .entered job =>
    Pending history order (.call i job.leafSlot) ∧ .invoke (.completion i job.leafSlot) ∉ history
  | .reserved job =>
    Pending history order (.call i job.leafSlot) ∧ .invoke (.completion i job.leafSlot) ∉ history
  | .boxed job => (.call i job.leafSlot, .spawned) ∈ order ∧ .invoke (.completion i job.leafSlot) ∉ history
  | .rejected job _ => (.call i job.leafSlot, .atCapacity) ∈ order
  | .refused _ => True
  | .live job => (.call i job.leafSlot, .spawned) ∈ order ∧ .invoke (.completion i job.leafSlot) ∉ history
  | .closing job leaf global =>
    Completing history order (.completion i job.leafSlot) (Stage.closing job leaf global).executing.isSome

section Frame

variable {history : List (Observed Operation Reply)} {order : List (Operation × Reply)} {i : Nat}
  {events : List (Observed Operation Reply)} {taken : List (Operation × Reply)}

theorem Pending.frame {operation : Operation} (h : Pending history order operation)
    (htaken : ∀ x ∈ taken, x.1 ≠ operation) : Pending (history ++ events) (order ++ taken) operation := by
  refine ⟨List.mem_append_left _ h.invoked, fun hm => ?_⟩
  rw [List.map_append, List.mem_append] at hm
  rcases hm with hm | hm
  · exact h.untaken hm
  · obtain ⟨x, hx, hop⟩ := List.mem_map.mp hm
    exact htaken x hx hop

theorem Completing.frame {operation : Operation} {whole : Bool} (h : Completing history order operation whole)
    (htaken : ∀ x ∈ taken, x.1 ≠ operation) : Completing (history ++ events) (order ++ taken) operation whole := by
  cases whole with
  | true => exact Pending.frame h htaken
  | false => exact List.mem_append_left _ h

theorem not_invoked_frame {operation : Operation} (h : .invoke operation ∉ history)
    (hevents : ∀ e ∈ events, e.operation ≠ operation) : .invoke operation ∉ history ++ events := by
  intro hm
  rcases List.mem_append.mp hm with hm | hm
  · exact h hm
  · exact hevents _ hm rfl

/-- Other attempts' events change nothing. -/
theorem Linked.frame {stage : Stage D} (h : Linked history order i stage)
    (hevents : ∀ e ∈ events, e.operation.attempt ≠ i) (htaken : ∀ x ∈ taken, x.1.attempt ≠ i) :
    Linked (history ++ events) (order ++ taken) i stage := by
  have hpending : ∀ {operation : Operation}, operation.attempt = i → Pending history order operation →
      Pending (history ++ events) (order ++ taken) operation :=
    fun hop hp => hp.frame fun x hx he => htaken x hx (he ▸ hop)
  have hnever : ∀ {operation : Operation}, operation.attempt = i → .invoke operation ∉ history →
      .invoke operation ∉ history ++ events :=
    fun hop hn => not_invoked_frame hn fun e he heq => hevents e he (heq ▸ hop)
  cases stage with
  | prepared job => exact ⟨hpending rfl h.1, hnever rfl h.2⟩
  | entered job => exact ⟨hpending rfl h.1, hnever rfl h.2⟩
  | reserved job => exact ⟨hpending rfl h.1, hnever rfl h.2⟩
  | boxed job => exact ⟨List.mem_append_left _ h.1, hnever rfl h.2⟩
  | rejected job outcome => exact List.mem_append_left _ h
  | refused outcome => trivial
  | live job => exact ⟨List.mem_append_left _ h.1, hnever rfl h.2⟩
  | closing job leaf global => exact Completing.frame h fun x hx he => htaken x hx (he ▸ rfl)

end Frame

/-! ## The run and its order -/

structure Explained (framework : Framework D) (r : Recorded D) (order : List (Operation × Reply)) (s : Slots) : Prop where
  inv : Inv framework r.world
  isOpen : r.world.permits.Open
  linear : Linearizes Slots.turn (Slots.start framework) r.history order s
  counts : Counts framework r.world.attempts s
  linked : ∀ i a, r.world.attempts[i]? = some a → Linked r.history order i a.stage
  bounded : ∀ operation, .invoke operation ∈ r.history → operation.attempt < r.world.attempts.length

theorem explained_start (framework : Framework D) : Explained framework (Recorded.start framework) [] (Slots.start framework) where
  inv := inv_start framework false fun _ => false
  isOpen := ⟨rfl, fun _ => rfl⟩
  linear := Lib.linearizes_nil _ _
  counts := Counts.start framework
  linked := by intro i a ha; cases ha
  bounded := by intro operation h; cases h

namespace Explained

variable {framework : Framework D} {r : Recorded D} {order : List (Operation × Reply)} {s : Slots} {w' : World D}

theorem begin (h : Explained framework r order s) (heffect : Effect framework r.world w') {stage : Stage D}
    (hnone : stage.executing = none) (hset : w'.attempts = r.world.attempts ++ [⟨stage, 0, 0⟩])
    {events : List (Observed Operation Reply)} (hevents : ∀ e ∈ events, e.operation.attempt = r.world.attempts.length)
    (hlinear : Linearizes Slots.turn (Slots.start framework) (r.history ++ events) order s)
    (hlinked : Linked (r.history ++ events) order r.world.attempts.length stage) :
    Explained framework ⟨w', r.history ++ events⟩ order s where
  inv := inv_effect h.inv heffect
  isOpen := effect_open h.isOpen heffect
  linear := hlinear
  counts := by
    show Counts framework w'.attempts s
    rw [hset]
    exact h.counts.concat hnone
  linked i a ha := by
    have ha : (r.world.attempts ++ [⟨stage, 0, 0⟩])[i]? = some a := hset ▸ ha
    by_cases hi : i < r.world.attempts.length
    · rw [List.getElem?_append_left hi] at ha
      have hframe : Linked (r.history ++ events) (order ++ []) i a.stage :=
        (h.linked i a ha).frame (fun e he heq => absurd hi (by rw [← heq, hevents e he]; exact Nat.lt_irrefl _))
          fun x hx => by cases hx
      rwa [List.append_nil] at hframe
    · have hlt := (List.getElem?_eq_some_iff.mp ha).1
      rw [List.length_append, List.length_singleton] at hlt
      obtain rfl : i = r.world.attempts.length := by omega
      rw [List.getElem?_concat_length] at ha
      cases ha
      exact hlinked
  bounded operation hm := by
    show operation.attempt < w'.attempts.length
    rw [hset, List.length_append, List.length_singleton]
    rcases List.mem_append.mp hm with hm | hm
    · exact Nat.lt_succ_of_lt (h.bounded operation hm)
    · have heq : operation.attempt = r.world.attempts.length := hevents _ hm
      omega

/-- The attempt at `i` moves; what shows and what is taken is its own. -/
theorem turn (h : Explained framework r order s) (heffect : Effect framework r.world w') {i : Nat} {a b : Attempt D}
    (ha : r.world.attempts[i]? = some a) (hset : w'.attempts = r.world.attempts.set i b)
    {events : List (Observed Operation Reply)} {taken : List (Operation × Reply)} {s' : Slots}
    (hevents : ∀ e ∈ events, e.operation.attempt = i) (htaken : ∀ x ∈ taken, x.1.attempt = i)
    (hlinear : Linearizes Slots.turn (Slots.start framework) (r.history ++ events) (order ++ taken) s')
    (hcounts : Counts framework (r.world.attempts.set i b) s')
    (hlinked : Linked (r.history ++ events) (order ++ taken) i b.stage) :
    Explained framework ⟨w', r.history ++ events⟩ (order ++ taken) s' where
  inv := inv_effect h.inv heffect
  isOpen := effect_open h.isOpen heffect
  linear := hlinear
  counts := by
    show Counts framework w'.attempts s'
    rw [hset]
    exact hcounts
  linked j c hc := by
    have hc : (r.world.attempts.set i b)[j]? = some c := hset ▸ hc
    by_cases hij : i = j
    · subst hij
      rw [List.getElem?_set_self (List.getElem?_eq_some_iff.mp ha).1] at hc
      cases hc
      exact hlinked
    · rw [List.getElem?_set_ne hij] at hc
      exact (h.linked j c hc).frame (fun e he heq => hij ((hevents e he).symm.trans heq))
        fun x hx heq => hij ((htaken x hx).symm.trans heq)
  bounded operation hm := by
    show operation.attempt < w'.attempts.length
    rw [hset, List.length_set]
    rcases List.mem_append.mp hm with hm | hm
    · exact h.bounded operation hm
    · rw [show operation.attempt = i from hevents _ hm]
      exact (List.getElem?_eq_some_iff.mp ha).1

theorem quiet (h : Explained framework r order s) (heffect : Effect framework r.world w') {i : Nat} {a b : Attempt D}
    (ha : r.world.attempts[i]? = some a) (hset : w'.attempts = r.world.attempts.set i b)
    (hexecuting : b.stage.executing = a.stage.executing) (hlinked : Linked r.history order i b.stage) :
    ∃ taken s', Explained framework ⟨w', r.history ++ []⟩ (order ++ taken) s' := by
  refine ⟨[], s, h.turn heffect ha hset (fun e he => by cases he) (fun x hx => by cases hx) ?_ (h.counts.keep ha hexecuting) ?_⟩
  · rw [List.append_nil, List.append_nil]
    exact h.linear
  · rw [List.append_nil, List.append_nil]
    exact hlinked

/-- What shows, if anything, is the response to what has been taken. -/
theorem returns (h : Explained framework r order s) (heffect : Effect framework r.world w') {i : Nat} {a b : Attempt D}
    (ha : r.world.attempts[i]? = some a) (hset : w'.attempts = r.world.attempts.set i b)
    (hexecuting : b.stage.executing = a.stage.executing) {operation : Operation} {reply : Reply}
    (hop : operation.attempt = i) (hmem : (operation, reply) ∈ order) {events : List (Observed Operation Reply)}
    (hevents : events = [] ∨ events = [.respond operation reply])
    (hlinked : Linked (r.history ++ events) order i b.stage) :
    ∃ taken s', Explained framework ⟨w', r.history ++ events⟩ (order ++ taken) s' := by
  refine ⟨[], s, h.turn heffect ha hset ?_ (fun x hx => by cases hx) ?_ (h.counts.keep ha hexecuting) ?_⟩
  · intro e he
    rcases hevents with rfl | rfl
    · cases he
    · rw [List.mem_singleton.mp he]
      exact hop
  · rw [List.append_nil]
    rcases hevents with rfl | rfl
    · rw [List.append_nil]
      exact h.linear
    · exact h.linear.respond hmem
  · rw [List.append_nil]
    exact hlinked

theorem takes (h : Explained framework r order s) (heffect : Effect framework r.world w') {i : Nat} {a b : Attempt D}
    (ha : r.world.attempts[i]? = some a) (hset : w'.attempts = r.world.attempts.set i b) {operation : Operation}
    {reply : Reply} {s' : Slots} (hop : operation.attempt = i) (hpending : Pending r.history order operation)
    (hseq : s.turn (operation, reply) = some s') (hcounts : Counts framework (r.world.attempts.set i b) s')
    {events : List (Observed Operation Reply)} (hevents : events = [] ∨ events = [.respond operation reply])
    (hlinked : Linked (r.history ++ events) (order ++ [(operation, reply)]) i b.stage) :
    ∃ taken s', Explained framework ⟨w', r.history ++ events⟩ (order ++ taken) s' := by
  have htaken := h.linear.take hpending.invoked hpending.untaken hseq
  refine ⟨[(operation, reply)], s', h.turn heffect ha hset ?_ (fun x hx => ?_) ?_ hcounts hlinked⟩
  · intro e he
    rcases hevents with rfl | rfl
    · cases he
    · rw [List.mem_singleton.mp he]
      exact hop
  · rw [List.mem_singleton.mp hx]
    exact hop
  · rcases hevents with rfl | rfl
    · rw [List.append_nil]
      exact htaken
    · exact htaken.respond (by simp)

end Explained

theorem takeLeaf_noPermits {job : Job D} {permits : Permits} (h : takeLeaf job permits = .error .noPermits) :
    ∃ path, job.leafSlot = some path ∧ (permits.leaf path).available = 0 := by
  unfold takeLeaf at h
  split at h
  · cases h
  · rename_i path hs
    split at h
    · rename_i ha
      cases h
      exact ⟨path, hs, tryAcquire_noPermits ha⟩
    · cases h

theorem takeGlobal_noPermits {permits : Permits} (h : takeGlobal permits = .error .noPermits) :
    permits.global.available = 0 := by
  unfold takeGlobal at h
  split at h
  · rename_i ha
    cases h
    exact tryAcquire_noPermits ha
  · cases h

theorem shown_drop (i : Nat) (job : Job D) (outcome : Except Error DispatchOutcome) :
    shown i (some (.rejected job outcome)) (some (.refused outcome)) = [] ∨
      shown i (some (.rejected job outcome)) (some (.refused outcome)) = [.respond (.call i job.leafSlot) .atCapacity] := by
  rcases outcome with error | outcome
  · exact .inl rfl
  · cases outcome with
    | atCapacity => exact .inr rfl
    | _ => exact .inl rfl

theorem shown_release (i : Nat) (job : Job D) (leaf global leaf' global' : Bool) :
    shown i (some (.closing job leaf global)) (some (.closing job leaf' global')) = [] ∨
      shown i (some (.closing job leaf global)) (some (.closing job leaf' global')) =
        [.respond (.completion i job.leafSlot) .completed] := by
  cases leaf' with
  | true => exact .inl rfl
  | false =>
    cases global' with
    | true => exact .inl rfl
    | false => exact .inr rfl

theorem executing_closing {job job' : Job D} {leaf global : Bool} :
    (Stage.closing job leaf global).executing = some job' ↔
      global = true ∧ (leaf || job.leafSlot.isNone) = true ∧ job = job' := by
  simp [Stage.executing, and_assoc]

/-- A whole task that gives a slot back completes; one that was not whole had. -/
theorem explained_release {framework : Framework D} {r : Recorded D} {order : List (Operation × Reply)} {s : Slots}
    {w' : World D} (h : Explained framework r order s) (heffect : Effect framework r.world w') {i : Nat} {job : Job D}
    {leaf global leaf' global' : Bool} {l g l' g' : Int}
    (ha : r.world.attempts[i]? = some ⟨.closing job leaf global, l, g⟩)
    (hset : w'.attempts = r.world.attempts.set i ⟨.closing job leaf' global', l', g'⟩)
    (hleaf : leaf' = true → leaf = true) (hglobal : global' = true → global = true) :
    ∃ taken s', Explained framework
      ⟨w', r.history ++ shown i (some (.closing job leaf global)) (some (.closing job leaf' global'))⟩ (order ++ taken) s' := by
  have hlinked := h.linked i _ ha
  have hevents := shown_release i job leaf global leaf' global'
  cases hafter : (Stage.closing job leaf' global').executing with
  | some job' =>
    -- still whole, so nothing is over
    obtain ⟨hg, hl, hjob⟩ := executing_closing.mp hafter
    have hbefore : (Stage.closing job leaf global).executing = some job' := by
      refine executing_closing.mpr ⟨hglobal hg, ?_, hjob⟩
      rcases (Bool.or_eq_true _ _).mp hl with hl | hl
      · rw [hleaf hl, Bool.true_or]
      · rw [hl, Bool.or_true]
    have hshown : shown i (some (.closing job leaf global)) (some (.closing job leaf' global')) = [] := by
      rw [hg]
      cases leaf' <;> rfl
    rw [hshown]
    refine h.quiet heffect ha hset (hafter.trans hbefore.symm) ?_
    show Completing _ _ _ (Stage.closing job leaf' global').executing.isSome
    have hlinked : Completing r.history order _ (Stage.closing job leaf global).executing.isSome := hlinked
    rw [hbefore] at hlinked
    rw [hafter]
    exact hlinked
  | none =>
    cases hbefore : (Stage.closing job leaf global).executing with
    | some job' =>
      obtain ⟨-, -, rfl⟩ := executing_closing.mp hbefore
      have hlinked : Completing r.history order _ (Stage.closing job leaf global).executing.isSome := hlinked
      rw [hbefore] at hlinked
      refine h.takes heffect ha hset rfl hlinked rfl (h.counts.give ha hbefore hafter) hevents ?_
      show Completing _ _ _ (Stage.closing job leaf' global').executing.isSome
      rw [hafter]
      exact List.mem_append_right _ (List.mem_singleton_self _)
    | none =>
      have hlinked : Completing r.history order _ (Stage.closing job leaf global).executing.isSome := hlinked
      rw [hbefore] at hlinked
      refine h.returns heffect ha hset (hafter.trans hbefore.symm) rfl hlinked hevents ?_
      show Completing _ _ _ (Stage.closing job leaf' global').executing.isSome
      rw [hafter]
      exact hlinked

theorem stageAt_of {w : World D} {i : Nat} {stage : Stage D} {l g : Int} (h : w.attempts[i]? = some ⟨stage, l, g⟩) :
    w.stageAt i = some stage := by
  unfold World.stageAt
  rw [h]
  rfl

theorem stageAt_set {w w' : World D} {i : Nat} {a : Attempt D} {stage : Stage D} {l g : Int}
    (ha : w.attempts[i]? = some a) (h : w'.attempts = w.attempts.set i ⟨stage, l, g⟩) : w'.stageAt i = some stage :=
  stageAt_of (by rw [h]; exact List.getElem?_set_self (List.getElem?_eq_some_iff.mp ha).1)

/-- What a turn takes: nothing, or the attempt's call or completion. -/
theorem explained_turn {framework : Framework D} {r : Recorded D} {order : List (Operation × Reply)} {s : Slots}
    {w' : World D} (h : Explained framework r order s) (heffect : Effect framework r.world w') {move : Move}
    (hearned : Earned framework r.world move) {before after : Stage D} {l g l' g' : Int}
    (ha : r.world.attempts[move.attempt r.world]? = some ⟨before, l, g⟩)
    (hset : w'.attempts = r.world.attempts.set (move.attempt r.world) ⟨after, l', g'⟩)
    (hturn : Turn r.world.permits move before after) :
    ∃ taken s', Explained framework ⟨w', r.history ++ shown (move.attempt r.world) (some before) (some after)⟩
      (order ++ taken) s' := by
  have hlinked := h.linked _ _ ha
  cases hturn with
  | enter => exact h.quiet heffect ha hset rfl hlinked
  | outside => exact h.quiet heffect ha hset rfl trivial
  | @full i job error ht =>
    -- refused its leaf's slot
    obtain rfl := (takeLeaf_open h.isOpen).2 error ht
    obtain ⟨path, hslot, hzero⟩ := takeLeaf_noPermits ht
    have hfull : s.free job.leafSlot = false := by
      rw [hslot]
      exact not_free_of_leaf h.inv h.counts hzero (hearned job path (stageAt_of ha) hslot hzero)
    exact h.takes heffect ha hset rfl hlinked.1 (turn_refused hfull _) (h.counts.keep ha rfl) (.inr rfl) trivial
  | reserve => exact h.quiet heffect ha hset rfl hlinked
  | @reject i job error ht =>
    -- refused a global slot
    obtain rfl := (takeGlobal_open h.isOpen).2 error ht
    have hzero := takeGlobal_noPermits ht
    have hfull : s.free job.leafSlot = false := not_free_of_global h.inv h.counts hzero (hearned hzero) _
    exact h.takes heffect ha hset rfl hlinked.1 (turn_refused hfull _) (h.counts.keep ha rfl) (.inl rfl)
      (List.mem_append_right _ (List.mem_singleton_self _))
  | @box i job hne =>
    have hfree : s.free job.leafSlot = true := free_of_box h.inv h.counts ha hne
    refine h.takes heffect ha hset rfl hlinked.1 (turn_spawned hfree _) (h.counts.take ha rfl rfl hfree) (.inl rfl) ?_
    refine ⟨List.mem_append_right _ (List.mem_singleton_self _), ?_⟩
    show _ ∉ r.history ++ []
    rw [List.append_nil]
    exact hlinked.2
  | drop => exact h.returns heffect ha hset rfl rfl hlinked (shown_drop _ _ _) trivial
  | spawn =>
    refine h.returns heffect ha hset rfl rfl hlinked.1 (.inr rfl) ⟨hlinked.1, ?_⟩
    exact not_invoked_frame hlinked.2 fun e he heq => by rw [List.mem_singleton.mp he] at heq; cases heq
  | poll => exact h.quiet heffect ha hset rfl hlinked
  | @finish i job ending =>
    have hexecuting : (Stage.closing job job.leafSlot.isSome true).executing = some job := by
      cases hslot : job.leafSlot <;> simp [Stage.executing, hslot]
    refine ⟨[], s, h.turn heffect ha hset (fun e he => ?_) (fun x hx => by cases hx) ?_ (h.counts.keep ha hexecuting) ?_⟩
    · rw [List.mem_singleton.mp he]
      rfl
    · rw [List.append_nil]
      exact h.linear.invoke hlinked.2
    · show Completing _ _ _ (Stage.closing job job.leafSlot.isSome true).executing.isSome
      rw [hexecuting]
      refine ⟨List.mem_append_right _ (List.mem_singleton_self _), fun hm => ?_⟩
      rw [List.append_nil] at hm
      obtain ⟨x, hx, hop⟩ := List.mem_map.mp hm
      exact hlinked.2 (hop ▸ h.linear.invoked x hx)
  | release hleaf hglobal => exact explained_release h heffect ha hset hleaf hglobal

theorem explained_step {framework : Framework D} {r r' : Recorded D} {order : List (Operation × Reply)} {s : Slots}
    {move : Move} (h : Explained framework r order s) (hearned : Earned framework r.world move)
    (hstep : recordedStep framework r move = some r') : ∃ taken s', Explained framework r' (order ++ taken) s' := by
  obtain ⟨w', hs, rfl⟩ := Option.map_eq_some_iff.mp hstep
  have heffect := step_effect hs
  rcases step_turn hs with ⟨stage, ⟨hnone, hstage⟩, hattempt, hset⟩ | ⟨before, after, l, g, l', g', ha, hset, hturn⟩
  · have hbefore : r.world.stageAt r.world.attempts.length = none := by
      unfold World.stageAt
      rw [List.getElem?_eq_none (Nat.le_refl _)]
      rfl
    have hafter : w'.stageAt r.world.attempts.length = some stage :=
      stageAt_of (by rw [hset]; exact List.getElem?_concat_length)
    rw [hattempt, hbefore, hafter]
    refine ⟨[], s, ?_⟩
    rw [List.append_nil]
    rcases hstage with ⟨outcome, rfl⟩ | ⟨job, rfl⟩
    · refine h.begin heffect hnone hset (fun e he => by cases he) ?_ trivial
      show Linearizes _ _ (r.history ++ []) _ _
      rw [List.append_nil]
      exact h.linear
    · -- no operation of this attempt has been invoked before
      have hnew : ∀ operation, operation.attempt = r.world.attempts.length → .invoke operation ∉ r.history :=
        fun operation hop hm => absurd (h.bounded operation hm) (by rw [hop]; exact Nat.lt_irrefl _)
      refine h.begin heffect hnone hset (fun e he => ?_) (h.linear.invoke (hnew _ rfl)) ⟨⟨?_, fun hm => ?_⟩, ?_⟩
      · rw [List.mem_singleton.mp he]
        rfl
      · exact List.mem_append_right _ (List.mem_singleton_self _)
      · obtain ⟨x, hx, hop⟩ := List.mem_map.mp hm
        exact hnew _ rfl (hop ▸ h.linear.invoked x hx)
      · exact not_invoked_frame (hnew _ rfl) fun e he heq => by rw [List.mem_singleton.mp he] at heq; cases heq
  · rw [stageAt_of ha, stageAt_set ha hset]
    exact explained_turn h heffect hearned ha hset hturn

/-- Along a run in which every refusal is earned, the outcomes are those of one call after
    another, in an order that keeps what had responded before what was invoked later. -/
theorem refusals_linearize (framework : Framework D) (moves : List Move) (r : Recorded D)
    (hrun : run (recordedStep framework) (Recorded.start framework) moves = some r)
    (hearned : Along (recordedStep framework) (fun r move => Earned framework r.world move) (Recorded.start framework) moves) :
    ∃ order s, Linearizes Slots.turn (Slots.start framework) r.history order s := by
  have hkeep : ∀ (r : Recorded D) (move : Move) (r' : Recorded D), (∃ order s, Explained framework r order s) →
      Earned framework r.world move → recordedStep framework r move = some r' →
      ∃ order s, Explained framework r' order s := by
    rintro r move r' ⟨order, s, h⟩ hearned hstep
    obtain ⟨taken, s', h'⟩ := explained_step h hearned hstep
    exact ⟨order ++ taken, s', h'⟩
  obtain ⟨order, s, h⟩ := run_along hkeep hrun hearned ⟨[], _, explained_start framework⟩
  exact ⟨order, s, h.linear⟩

theorem full_run {framework : Framework D} {event : GatewayEvent} {job : Job D}
    (hjob : jobOf (prepareDispatch framework event none) = .ok job) {path : List String} (hslot : job.leafSlot = some path)
    (hlimit : leafLimit framework path = some 1) :
    ∃ r, run (recordedStep framework) (Recorded.start framework)
        [.begin event none, .enter 0 true, .reserve 0, .box 0, .spawn 0, .begin event none, .enter 1 true, .reserve 1] =
        some r ∧
      Along (recordedStep framework) (fun r move => Earned framework r.world move) (Recorded.start framework)
        [.begin event none, .enter 0 true, .reserve 0, .box 0, .spawn 0, .begin event none, .enter 1 true, .reserve 1] := by
  let limit := framework.maxConcurrentCommands
  let leaf := fun path => (⟨(leafLimit framework path).getD 0, false⟩ : Semaphore)
  let taken := Function.update leaf path ⟨0, false⟩
  have hfree : limit ≠ 0 := framework.limited
  have hleaf : leaf path = ⟨1, false⟩ := by simp only [leaf, hlimit, Option.getD_some]
  have htaken : taken path = ⟨0, false⟩ := Function.update_self ..
  have hstart : Recorded.start framework = ⟨⟨⟨⟨limit, false⟩, leaf⟩, [], []⟩, []⟩ := rfl
  let spawned : Recorded D := ⟨⟨⟨⟨limit - 1, false⟩, taken⟩, [⟨.live job, -1, -1⟩], []⟩,
    [.invoke (.call 0 (some path)), .respond (.call 0 (some path)) .spawned]⟩
  have hspawned : run (recordedStep framework) (Recorded.start framework)
      [.begin event none, .enter 0 true, .reserve 0, .box 0, .spawn 0] = some spawned := by
    rw [hstart]
    simp [run, recordedStep, step, hjob, World.put, World.stageAt, Move.attempt, shown, takeLeaf, takeGlobal,
      Semaphore.tryAcquire, Semaphore.acquire, hslot, hleaf, hfree, cost_some hslot, spawned, taken]
  have hfirst : Along (recordedStep framework) (fun r move => Earned framework r.world move) (Recorded.start framework)
      [.begin event none, .enter 0 true, .reserve 0, .box 0, .spawn 0] := by
    rw [hstart]
    simp [Along, Earned, recordedStep, step, hjob, World.put, World.stageAt, Move.attempt, takeLeaf, takeGlobal,
      Semaphore.tryAcquire, Semaphore.acquire, hslot, hleaf, hfree]
    -- nothing is refused so far
    rintro _ other rfl hother hzero
    rw [hslot] at hother
    cases hother
    rw [hleaf] at hzero
    cases hzero
  have hrefused : ∃ r, run (recordedStep framework) spawned [.begin event none, .enter 1 true, .reserve 1] = some r := by
    simp [run, recordedStep, step, hjob, World.put, takeLeaf, Semaphore.tryAcquire, hslot, htaken, spawned]
  have hsecond : Along (recordedStep framework) (fun r move => Earned framework r.world move) spawned
      [.begin event none, .enter 1 true, .reserve 1] := by
    simp [Along, Earned, recordedStep, step, hjob, World.put, World.stageAt, spawned, Attempt.holdsLeaf, Attempt.leaf,
      Attempt.whole, Stage.executing]
  obtain ⟨r, hr⟩ := hrefused
  exact ⟨r, Lib.run_append hspawned hr, Lib.along_append hspawned hfirst hsecond⟩

theorem refusals_linearize_slow :
    let slow : SlashCommand Unit := .leaf ⟨"slow", "Exercise concurrency limits", []⟩
      { handler := fun _ data => (.ok (), data), policy := { maxConcurrency := some 1 } }
    let commandData : ApplicationCommandInteractionData := ⟨"slow", .chatInput, []⟩
    let interaction : Interaction := ⟨1, 2, .applicationCommand, "token", none, none, none, none, .ok (some commandData)⟩
    let event := interactionEvent interaction
    ∃ (framework : Framework Unit) (r : Recorded Unit), framework.registry.get "slow" = some slow ∧
      run (recordedStep framework) (Recorded.start framework)
        [.begin event none, .enter 0 true, .reserve 0, .box 0, .spawn 0, .begin event none, .enter 1 true, .reserve 1] =
        some r ∧
      ∃ order s, Linearizes Slots.turn (Slots.start framework) r.history order s := by
  intro slow commandData interaction event
  obtain ⟨framework, hget⟩ := exists_framework slow rfl
  obtain ⟨job, hjob, hslot, hslots, hpath⟩ : ∃ job, jobOf (prepareDispatch framework event none) = .ok (.command job) ∧
      Job.leafSlot (.command job) = some ["slow"] ∧ job.policy.commandSlots = some 1 ∧ job.context.commandPath = ["slow"] := by
    rw [@prepareDispatch_registered Unit framework interaction none commandData slow (.inl rfl) rfl rfl hget]
    exact ⟨_, rfl, rfl, rfl, rfl⟩
  have hlimit : leafLimit framework ["slow"] = some 1 := by
    have hregistered : job.policy.commandSlots = leafLimit framework job.context.commandPath := jobOf_registered hjob
    rw [hslots, hpath] at hregistered
    exact hregistered.symm
  obtain ⟨r, hr, hearned⟩ := full_run hjob hslot hlimit
  exact ⟨framework, r, hget, hr, refusals_linearize framework _ r hr hearned⟩

theorem recorded_run {framework : Framework D} {moves : List Move} : ∀ {r r' : Recorded D},
    run (recordedStep framework) r moves = some r' → run (step framework) r.world moves = some r'.world := by
  induction moves with
  | nil =>
    intro r r' h
    cases h
    rfl
  | cons move moves ih =>
    intro r r' h
    obtain ⟨m, hm, hr⟩ := Lib.run_cons h
    obtain ⟨w, hw, rfl⟩ := Option.map_eq_some_iff.mp hm
    show (step framework r.world move).bind _ = _
    rw [hw]
    exact ih hr

/-! ## A refusal that no order explains -/

def Operation.slot : Operation → Option (List String)
  | call _ slot => slot
  | completion _ slot => slot

theorem run_global {order : List (Operation × Reply)} : ∀ {s s' : Slots}, run Slots.turn s order = some s' →
    s'.global + order.countP (·.2 == .spawned) = s.global + order.countP (·.2 == .completed) := by
  induction order with
  | nil =>
    intro s s' h
    cases h
    rfl
  | cons x order ih =>
    intro s s' h
    obtain ⟨m, hm, hr⟩ := Lib.run_cons h
    have hrest := ih hr
    obtain ⟨operation, reply⟩ := x
    rw [List.countP_cons, List.countP_cons]
    rcases operation with ⟨i, slot⟩ | ⟨i, slot⟩ <;> cases reply <;> simp only [Slots.turn, Option.ite_none_left_eq_some,
      Option.ite_none_right_eq_some, Option.some.injEq, reduceCtorEq] at hm
    case call.spawned =>
      obtain ⟨hfree, rfl⟩ := hm
      have hne := free_global hfree
      have hglobal : (s.take slot).global = s.global - 1 := rfl
      simp only [beq_self_eq_true, if_true, show (Reply.spawned == Reply.completed) = false from rfl, Bool.false_eq_true,
        if_false]
      omega
    case call.atCapacity =>
      obtain ⟨-, rfl⟩ := hm
      exact hrest
    case completion.completed =>
      subst hm
      have hglobal : (s.give slot).global = s.global + 1 := rfl
      simp only [beq_self_eq_true, if_true, show (Reply.completed == Reply.spawned) = false from rfl, Bool.false_eq_true,
        if_false]
      omega

/-- A leaf that no call is spawned on keeps its free slots. -/
theorem run_leaf {path : List String} {order : List (Operation × Reply)} : ∀ {s s' : Slots},
    run Slots.turn s order = some s' → (∀ x ∈ order, x.2 = .spawned → x.1.slot ≠ some path) → s.leaf path ≤ s'.leaf path := by
  induction order with
  | nil =>
    intro s s' h _
    cases h
    exact Nat.le_refl _
  | cons x order ih =>
    intro s s' h hnone
    obtain ⟨m, hm, hr⟩ := Lib.run_cons h
    refine Nat.le_trans ?_ (ih hr fun y hy => hnone y (List.mem_cons_of_mem _ hy))
    have hx := hnone x (List.mem_cons_self ..)
    obtain ⟨operation, reply⟩ := x
    rcases operation with ⟨i, slot⟩ | ⟨i, slot⟩ <;> cases reply <;> simp only [Slots.turn, Option.ite_none_left_eq_some,
      Option.ite_none_right_eq_some, Option.some.injEq, reduceCtorEq] at hm
    case call.spawned =>
      obtain ⟨-, rfl⟩ := hm
      exact Nat.le_of_eq (if_neg (hx rfl)).symm
    case call.atCapacity =>
      obtain ⟨-, rfl⟩ := hm
      exact Nat.le_refl _
    case completion.completed =>
      subst hm
      show s.leaf path ≤ if slot = some path then s.leaf path + 1 else s.leaf path
      split
      · exact Nat.le_succ _
      · exact Nat.le_refl _

/-- Call 0 is spawned and completes, then call 2 begins. Meanwhile call 1 is refused, and
    so is call 2. -/
def passingHistory (path : List String) : List (Observed Operation Reply) :=
  [.invoke (.call 0 none), .respond (.call 0 none) .spawned, .invoke (.call 1 (some path)), .invoke (.completion 0 none),
    .respond (.completion 0 none) .completed, .invoke (.call 2 (some path)), .respond (.call 2 (some path)) .atCapacity,
    .respond (.call 1 (some path)) .atCapacity]

/-- With one slot each, call 2 comes when both are free. -/
theorem passingHistory_unexplained {path : List String} {s₀ s : Slots} (hglobal : s₀.global = 1) (hleaf : s₀.leaf path = 1)
    {order : List (Operation × Reply)} : ¬ Linearizes Slots.turn s₀ (passingHistory path) order s := by
  intro h
  have hknown : ∀ x ∈ order, x = (.call 0 none, .spawned) ∨ x = (.call 1 (some path), .atCapacity) ∨
      x = (.completion 0 none, .completed) ∨ x = (.call 2 (some path), .atCapacity) := by
    rintro ⟨operation, reply⟩ hx
    have hreply : ∀ outcome, .respond operation outcome ∈ passingHistory path → reply = outcome :=
      fun outcome hr => h.outcome_eq hr hx
    have hinvoked : operation = .call 0 none ∨ operation = .call 1 (some path) ∨ operation = .completion 0 none ∨
        operation = .call 2 (some path) := by
      simpa [passingHistory] using h.invoked _ hx
    rcases hinvoked with rfl | rfl | rfl | rfl
    · exact .inl (by rw [hreply .spawned (by simp [passingHistory])])
    · exact .inr (.inl (by rw [hreply .atCapacity (by simp [passingHistory])]))
    · exact .inr (.inr (.inl (by rw [hreply .completed (by simp [passingHistory])])))
    · exact .inr (.inr (.inr (by rw [hreply .atCapacity (by simp [passingHistory])])))
  have hrefused : (.call 2 (some path), .atCapacity) ∈ order := h.responded _ _ (by simp [passingHistory])
  have hprecedes : Precedes (passingHistory path) (.completion 0 none) (.call 2 (some path)) :=
    ⟨(passingHistory path).take 5, (passingHistory path).drop 6, .completed, rfl, by simp [passingHistory]⟩
  obtain ⟨before, after, reply, rfl, hbefore⟩ := h.realTime _ _ hprecedes (List.mem_map.mpr ⟨_, hrefused, rfl⟩)
  obtain ⟨m, hm, hrest⟩ := Lib.run_split h.legal
  have hmem : ∀ x ∈ before, x ∈ before ++ (.call 2 (some path), reply) :: after := fun x hx => List.mem_append_left _ hx
  -- one call at most was spawned before, and that one has completed
  have hspawned : before.countP (·.2 == .spawned) ≤ 1 := by
    have hnodup : (before.map Prod.fst).Nodup := by
      have := h.once
      rw [List.map_append] at this
      exact this.of_append_left
    calc before.countP (·.2 == .spawned)
        ≤ before.countP ((· == .call 0 none) ∘ Prod.fst) := List.countP_mono_left fun x hx hs => by
          rcases hknown x (hmem x hx) with rfl | rfl | rfl | rfl
          · rfl
          all_goals cases hs
      _ = (before.map Prod.fst).count (.call 0 none) := List.countP_map.symm
      _ ≤ 1 := List.nodup_iff_count_le_one.mp hnodup _
  have hcompleted : 0 < before.countP (·.2 == .completed) := by
    obtain ⟨x, hx, hop⟩ := List.mem_map.mp hbefore
    refine List.countP_pos_iff.mpr ⟨x, hx, ?_⟩
    rcases hknown x (hmem x hx) with rfl | rfl | rfl | rfl
    · cases hop
    · cases hop
    · rfl
    · cases hop
  have hfreeGlobal : m.global ≠ 0 := by
    have := run_global hm
    omega
  have hfreeLeaf : m.leaf path ≠ 0 := by
    have hle : s₀.leaf path ≤ m.leaf path := by
      refine run_leaf hm fun x hx hs => ?_
      rcases hknown x (hmem x hx) with rfl | rfl | rfl | rfl
      · exact fun hslot => by cases hslot
      all_goals cases hs
    omega
  -- so its refusal is no turn
  obtain ⟨n, hn, -⟩ := Lib.run_cons hrest
  rcases hknown _ (List.mem_append_right before (List.mem_cons_self ..)) with he | he | he | he <;> cases he
  simp [Slots.turn, Slots.free, hfreeGlobal, hfreeLeaf] at hn

theorem passing_run {framework : Framework D} (hone : framework.maxConcurrentCommands = 1) {ping slow : GatewayEvent}
    {first second : Job D} (hfirst : jobOf (prepareDispatch framework ping none) = .ok first) (hnone : first.leafSlot = none)
    (hsecond : jobOf (prepareDispatch framework slow none) = .ok second) {path : List String}
    (hslot : second.leafSlot = some path) (hlimit : leafLimit framework path = some 1) :
    ∃ r, run (recordedStep framework) (Recorded.start framework)
      [.begin ping none, .enter 0 true, .reserve 0, .box 0, .spawn 0, .begin slow none, .enter 1 true, .reserve 1, .box 1,
        .finish 0 (.completed (.ok ())), .releaseGlobal 0, .begin slow none, .enter 2 true, .reserve 2, .drop 1] = some r ∧
      r.history = passingHistory path := by
  let leaf := fun path => (⟨(leafLimit framework path).getD 0, false⟩ : Semaphore)
  let taken := Function.update leaf path ⟨0, false⟩
  have hleaf : leaf path = ⟨1, false⟩ := by simp only [leaf, hlimit, Option.getD_some]
  have htaken : taken path = ⟨0, false⟩ := Function.update_self ..
  have hstart : Recorded.start framework = ⟨⟨⟨⟨1, false⟩, leaf⟩, [], []⟩, []⟩ := by
    unfold Recorded.start World.start
    rw [hone]
  have hspawned : run (recordedStep framework) (Recorded.start framework)
      [.begin ping none, .enter 0 true, .reserve 0, .box 0, .spawn 0] =
      some ⟨⟨⟨⟨0, false⟩, leaf⟩, [⟨.live first, 0, -1⟩], []⟩, (passingHistory path).take 2⟩ := by
    rw [hstart]
    simp [run, recordedStep, step, hfirst, World.put, World.stageAt, Move.attempt, shown, takeLeaf, takeGlobal,
      Semaphore.tryAcquire, Semaphore.acquire, hnone, cost_none hnone, passingHistory]
  have hpassing : run (recordedStep framework)
      ⟨⟨⟨⟨0, false⟩, leaf⟩, [⟨.live first, 0, -1⟩], []⟩, (passingHistory path).take 2⟩
      [.begin slow none, .enter 1 true, .reserve 1, .box 1] =
      some ⟨⟨⟨⟨0, false⟩, taken⟩, [⟨.live first, 0, -1⟩, ⟨.rejected second (refusal second .noPermits), -1, 0⟩], []⟩,
        (passingHistory path).take 3⟩ := by
    simp [run, recordedStep, step, hsecond, World.put, World.stageAt, Move.attempt, shown, takeLeaf, takeGlobal,
      Semaphore.tryAcquire, Semaphore.acquire, hslot, hleaf, cost_some hslot, passingHistory, taken]
  have hcompleted : run (recordedStep framework)
      ⟨⟨⟨⟨0, false⟩, taken⟩, [⟨.live first, 0, -1⟩, ⟨.rejected second (refusal second .noPermits), -1, 0⟩], []⟩,
        (passingHistory path).take 3⟩ [.finish 0 (.completed (.ok ())), .releaseGlobal 0] =
      some ⟨⟨⟨⟨1, false⟩, taken⟩, [⟨.closing first false false, 0, 0⟩, ⟨.rejected second (refusal second .noPermits), -1, 0⟩], []⟩,
        (passingHistory path).take 5⟩ := by
    simp [run, recordedStep, step, World.put, World.stageAt, Move.attempt, shown, dropGlobal, Semaphore.release, hnone,
      passingHistory]
  have hrefused : ∃ r, run (recordedStep framework)
      ⟨⟨⟨⟨1, false⟩, taken⟩, [⟨.closing first false false, 0, 0⟩, ⟨.rejected second (refusal second .noPermits), -1, 0⟩], []⟩,
        (passingHistory path).take 5⟩ [.begin slow none, .enter 2 true, .reserve 2, .drop 1] = some r ∧
      r.history = passingHistory path := by
    simp [run, recordedStep, step, hsecond, World.put, World.stageAt, Move.attempt, shown, takeLeaf, dropLeaf,
      Semaphore.tryAcquire, hslot, htaken, refusal, passingHistory]
  obtain ⟨r, hr, hhistory⟩ := hrefused
  exact ⟨r, Lib.run_append hspawned (Lib.run_append hpassing (Lib.run_append hcompleted hr)), hhistory⟩

/-- `slow` runs one at a time and the framework runs one task. While `ping` runs, `slow`
    gets its leaf's slot and is refused a global one; `ping` ends; and `slow`, called
    again, is refused for the slot that the first call has yet to give back. -/
theorem refused_below_capacity :
    let ping : SlashCommand Unit := .leaf ⟨"ping", "Check that the application is ready", []⟩
      { handler := fun _ data => (.ok (), data) }
    let slow : SlashCommand Unit := .leaf ⟨"slow", "Exercise concurrency limits", []⟩
      { handler := fun _ data => (.ok (), data), policy := { maxConcurrency := some 1 } }
    let pinged : ApplicationCommandInteractionData := ⟨"ping", .chatInput, []⟩
    let slowed : ApplicationCommandInteractionData := ⟨"slow", .chatInput, []⟩
    let ofPing : Interaction := ⟨1, 2, .applicationCommand, "token", none, none, none, none, .ok (some pinged)⟩
    let ofSlow : Interaction := ⟨3, 2, .applicationCommand, "token", none, none, none, none, .ok (some slowed)⟩
    ∃ (framework : Framework Unit) (r : Recorded Unit), framework.maxConcurrentCommands = 1 ∧
      framework.registry.get "ping" = some ping ∧ framework.registry.get "slow" = some slow ∧
      run (recordedStep framework) (Recorded.start framework)
        [.begin (interactionEvent ofPing) none, .enter 0 true, .reserve 0, .box 0, .spawn 0,
          .begin (interactionEvent ofSlow) none, .enter 1 true, .reserve 1, .box 1, .finish 0 (.completed (.ok ())),
          .releaseGlobal 0, .begin (interactionEvent ofSlow) none, .enter 2 true, .reserve 2, .drop 1] = some r ∧
      ¬ ∃ order s, Linearizes Slots.turn (Slots.start framework) r.history order s := by
  intro ping slow pinged slowed ofPing ofSlow
  have hframework : ∃ framework : Framework Unit, framework.maxConcurrentCommands = 1 ∧
      framework.registry.get "ping" = some ping ∧ framework.registry.get "slow" = some slow := by
    refine ⟨⟨CommandRegistry.new.insertCalls [ping, slow], .none, 1, [], [], none, by decide⟩, rfl, ?_, ?_⟩
    · exact (CommandRegistry.insertCalls_get _ _ _).trans rfl
    · exact (CommandRegistry.insertCalls_get _ _ _).trans rfl
  obtain ⟨framework, hone, hping, hslow⟩ := hframework
  obtain ⟨first, hfirst, hnone⟩ : ∃ job, jobOf (prepareDispatch framework (interactionEvent ofPing) none) = .ok job ∧
      job.leafSlot = none := by
    rw [@prepareDispatch_registered Unit framework ofPing none pinged ping (.inl rfl) rfl rfl hping]
    exact ⟨_, rfl, rfl⟩
  obtain ⟨second, hsecond, hslot, hslots, hpath⟩ : ∃ job, jobOf (prepareDispatch framework (interactionEvent ofSlow) none) =
      .ok (.command job) ∧ Job.leafSlot (.command job) = some ["slow"] ∧ job.policy.commandSlots = some 1 ∧
      job.context.commandPath = ["slow"] := by
    rw [@prepareDispatch_registered Unit framework ofSlow none slowed slow (.inl rfl) rfl rfl hslow]
    exact ⟨_, rfl, rfl, rfl, rfl⟩
  have hlimit : leafLimit framework ["slow"] = some 1 := by
    have hregistered : second.policy.commandSlots = leafLimit framework second.context.commandPath := jobOf_registered hsecond
    rw [hslots, hpath] at hregistered
    exact hregistered.symm
  obtain ⟨r, hr, hhistory⟩ := passing_run hone hfirst hnone hsecond hslot hlimit
  refine ⟨framework, r, hone, hping, hslow, hr, ?_⟩
  rintro ⟨order, s, h⟩
  rw [hhistory] at h
  exact passingHistory_unexplained hone (by show (leafLimit framework ["slow"]).getD 0 = 1; rw [hlimit]; rfl) h

end GloamCommands.Dispatch
