/-
  GloamCommands.Dispatch.Drain — capacity comes back (the machine of `Dispatch.Permits`).

  A `begin` is a new call of `dispatch`; a poll may be repeated. Every other move brings
  an attempt nearer to its end: it is refused, or its task ends and drops its permits
  (`Attempt.remaining`).
  - `capacity_returns`: whatever has been run, what has begun ends in so many moves and in
    any order; then every permit is free, and every command and autocomplete interaction
    of a registered leaf is spawned again.
-/

import GloamCommands.Dispatch.Linearize
import GloamCommands.Lib.Drain

namespace GloamCommands.Dispatch

open Lib (Drains run run_invariant sum_replace)

variable {D : Type}

/-! ## What is left -/

def Attempt.remaining (a : Attempt D) : Nat :=
  match a.stage with
  | .prepared _ => 7
  | .entered _ => 6
  | .reserved _ => 5
  | .boxed _ => 4
  | .live _ => 3
  | .closing _ leaf global => leaf.toNat + global.toNat
  | .rejected _ _ => 1
  | .refused _ => 0

def World.remaining (w : World D) : Nat := (w.attempts.map Attempt.remaining).sum

/-- The move begins nothing, and is not one more poll. -/
def Move.Winds : Move → Prop
  | .begin .. => False
  | .poll _ => False
  | _ => True

/-- Every permit is free, and whatever there is to execute is spawned. -/
structure AtRest (framework : Framework D) (w : World D) : Prop where
  global : w.permits.global.available = framework.maxConcurrentCommands
  leaf : ∀ path limit, leafLimit framework path = some limit → (w.permits.leaf path).available = limit
  spawns : ∀ event shardId job, jobOf (prepareDispatch framework event shardId) = .ok job →
    (dispatch framework event shardId true w.permits).1 = .ok (.spawned job.commandName)

/-! ## Winding up -/

theorem put_remaining {w : World D} {i : Nat} {a b : Attempt D} (h : w.attempts[i]? = some a)
    (hlower : b.remaining < a.remaining) : (w.put i b).remaining < w.remaining := by
  have hsum := sum_replace Attempt.remaining b h
  unfold World.remaining World.put
  dsimp only
  omega

theorem step_remaining {framework : Framework D} {w w' : World D} {m : Move} (hw : m.Winds)
    (h : step framework w m = some w') : w'.remaining < w.remaining := by
  cases m with
  | begin => exact absurd hw id
  | poll => exact absurd hw id
  | enter i inside =>
    simp only [step] at h
    split at h
    · rename_i job l g ha
      cases h
      refine put_remaining ha ?_
      cases inside <;> simp [Attempt.remaining]
    · cases h
  | reserve i =>
    simp only [step] at h
    split at h
    · rename_i job l g ha
      split at h
      · cases h
        exact put_remaining ha (by simp [Attempt.remaining])
      · cases h
        exact put_remaining ha (Nat.lt_succ_self 5)
    · cases h
  | box i =>
    simp only [step] at h
    split at h
    · rename_i job l g ha
      split at h
      · cases h
        exact put_remaining ha (by simp [Attempt.remaining])
      · cases h
        exact put_remaining ha (Nat.lt_succ_self 4)
    · cases h
  | drop i =>
    simp only [step] at h
    split at h
    · rename_i job outcome l g ha
      cases h
      exact put_remaining ha (Nat.lt_succ_self 0)
    · cases h
  | spawn i =>
    simp only [step] at h
    split at h
    · rename_i job l g ha
      cases h
      exact put_remaining ha (Nat.lt_succ_self 3)
    · cases h
  | finish i ending =>
    simp only [step] at h
    split at h
    · rename_i job l g ha
      cases h
      refine put_remaining ha ?_
      cases job.leafSlot.isSome <;> simp [Attempt.remaining]
    · cases h
  | releaseLeaf i =>
    simp only [step] at h
    split at h
    · rename_i job global l g ha
      cases h
      exact put_remaining ha (by simp [Attempt.remaining])
    · cases h
  | releaseGlobal i =>
    simp only [step] at h
    split at h
    · rename_i job leaf l g ha
      cases h
      exact put_remaining ha (by simp [Attempt.remaining])
    · cases h

theorem step_goes {framework : Framework D} {w : World D} {i : Nat} {a : Attempt D} (h : w.attempts[i]? = some a)
    (hleft : a.remaining ≠ 0) : ∃ m : Move, m.Winds ∧ (step framework w m).isSome := by
  obtain ⟨stage, l, g⟩ := a
  cases stage with
  | prepared job => exact ⟨.enter i true, trivial, by simp [step, h]⟩
  | entered job =>
    refine ⟨.reserve i, trivial, ?_⟩
    cases ht : takeLeaf job w.permits <;> simp [step, h, ht]
  | reserved job =>
    refine ⟨.box i, trivial, ?_⟩
    cases ht : takeGlobal w.permits <;> simp [step, h, ht]
  | boxed job => exact ⟨.spawn i, trivial, by simp [step, h]⟩
  | rejected job outcome => exact ⟨.drop i, trivial, by simp [step, h]⟩
  | refused outcome => exact absurd rfl hleft
  | live job => exact ⟨.finish i .aborted, trivial, by simp [step, h]⟩
  | closing job leaf global =>
    cases leaf with
    | true => exact ⟨.releaseLeaf i, trivial, by simp [step, h]⟩
    | false =>
      cases global with
      | true => exact ⟨.releaseGlobal i, trivial, by simp [step, h]⟩
      | false => exact absurd rfl hleft

/-! ## At rest -/

theorem remaining_inProgress {a : Attempt D} (h : a.remaining = 0) : a.inProgress = false := by
  obtain ⟨stage, l, g⟩ := a
  cases stage with
  | refused => rfl
  | closing job leaf global => cases leaf <;> cases global <;> first | rfl | cases h
  | _ => cases h

theorem jobOf_limit {framework : Framework D} {event : GatewayEvent} {shardId : Option ShardId} {job : Job D}
    (h : jobOf (prepareDispatch framework event shardId) = .ok job) {path : List String} (hslot : job.leafSlot = some path) :
    ∃ limit, leafLimit framework path = some limit ∧ limit ≠ 0 := by
  have hregistered := jobOf_registered h
  cases job with
  | autocomplete prepared => cases hslot
  | command prepared =>
    obtain ⟨limit, hlimit, hpath⟩ := Option.map_eq_some_iff.mp hslot
    subst hpath
    change prepared.policy.commandSlots = _ at hregistered
    refine ⟨limit, hregistered.symm.trans hlimit, ?_⟩
    cases hp : prepareDispatch framework event shardId with
    | error error =>
      rw [hp] at h
      cases h
    | ok dispatched =>
      rw [hp] at h
      cases dispatched with
      | command command =>
        cases h
        rcases prepareDispatch_prepares hp with himpossible | ⟨interaction, hprepares⟩
        · cases himpossible
        · cases hprepares with
          | @command commandData command resolved _ _ hget hr hcommand =>
            obtain ⟨descriptor, kind, hleaf, hvalid⟩ := resolve_validLeaf (CommandRegistry.valid hget) hr
            obtain ⟨-, hpolicy⟩ := prepareCommand_policy hcommand
            rw [hleaf] at hpolicy
            have hsame : kind.policy = prepared.policy := Option.some.inj hpolicy
            intro hzero
            exact hvalid.limit (by rw [hsame, ← hzero]; exact hlimit)
      | _ => cases h

theorem takeLeaf_free {job : Job D} {permits : Permits} (ho : permits.Open)
    (hfree : ∀ path, job.leafSlot = some path → (permits.leaf path).available ≠ 0) :
    ∃ next, takeLeaf job permits = .ok next ∧ next.global = permits.global := by
  unfold takeLeaf
  cases hs : job.leafSlot with
  | none => exact ⟨permits, rfl, rfl⟩
  | some path =>
    dsimp only
    rw [tryAcquire_free (ho.2 path) (hfree path hs)]
    exact ⟨_, rfl, rfl⟩

/-- With every permit free, what there is to execute is spawned. -/
theorem dispatch_free {framework : Framework D} {permits : Permits} (ho : permits.Open)
    (hglobal : permits.global.available = framework.maxConcurrentCommands)
    (hleaf : ∀ path limit, leafLimit framework path = some limit → (permits.leaf path).available = limit)
    {event : GatewayEvent} {shardId : Option ShardId} {job : Job D}
    (hj : jobOf (prepareDispatch framework event shardId) = .ok job) :
    (dispatch framework event shardId true permits).1 = .ok (.spawned job.commandName) := by
  obtain ⟨next, hnext, hsame⟩ := takeLeaf_free ho fun path hslot => by
    obtain ⟨limit, hlimit, hpositive⟩ := jobOf_limit hj hslot
    rw [hleaf path limit hlimit]
    exact hpositive
  have hfree : permits.global.tryAcquire = .ok permits.global.acquire :=
    tryAcquire_free ho.1 (hglobal ▸ framework.limited)
  have htaken : takeGlobal next = .ok { next with global := permits.global.acquire } := by
    unfold takeGlobal
    rw [hsame, hfree]
  simp only [dispatch, hj, if_true, tryExecute, hnext, htaken]

theorem open_run {framework : Framework D} {moves : List Move} {w : World D}
    (h : run (step framework) (World.start framework false fun _ => false) moves = some w) : w.permits.Open :=
  run_invariant (I := fun w => w.permits.Open) (fun _ _ _ ho hs => effect_open ho (step_effect hs)) h ⟨rfl, fun _ => rfl⟩

/-- The machine winds up to where no attempt has a move left. -/
theorem dispatch_drains (framework : Framework D) :
    Drains (step framework) Move.Winds (fun w => Inv framework w ∧ w.permits.Open) (AtRest framework) World.remaining where
  keeps h _ hs := ⟨inv_effect h.1 (step_effect hs), effect_open h.2 (step_effect hs)⟩
  lowers _ hw hs := step_remaining hw hs
  goes {w} h hrest := by
    by_cases hleft : ∃ (i : Nat) (a : Attempt D), w.attempts[i]? = some a ∧ a.remaining ≠ 0
    · obtain ⟨i, a, ha, hleft⟩ := hleft
      obtain ⟨m, hw, hsome⟩ := @step_goes D framework w i a ha hleft
      exact ⟨m, _, hw, (Option.some_get hsome).symm⟩
    · refine absurd ?_ hrest
      have hidle : ∀ a ∈ w.attempts, a.inProgress = false := by
        intro a ha
        obtain ⟨i, hi⟩ := List.getElem?_of_mem ha
        exact remaining_inProgress (by_contra fun hne => hleft ⟨i, a, hi, hne⟩)
      have hglobal := h.1.global.free fun a ha => (inProgress_holds (hidle a ha) []).1
      have hleaf : ∀ path limit, leafLimit framework path = some limit → (w.permits.leaf path).available = limit := by
        intro path limit hlimit
        have hfree := (h.1.leaf path).free fun a ha => (inProgress_holds (hidle a ha) path).2
        rw [hfree, hlimit, Option.getD_some]
      exact ⟨hglobal, hleaf, fun event shardId job hj => dispatch_free h.2 hglobal hleaf hj⟩

/-- After any run, what has begun can be brought to its end, and every way of going on with
    it gets there: in no more moves than are left, and when none can be made any more every
    permit is free and every interaction there is a leaf for is spawned again. -/
theorem capacity_returns (framework : Framework D) (moves : List Move) (w : World D)
    (h : run (step framework) (World.start framework false fun _ => false) moves = some w) :
    (∃ more w', (∀ m ∈ more, m.Winds) ∧ run (step framework) w more = some w' ∧ AtRest framework w') ∧
    ∀ more w', (∀ m ∈ more, m.Winds) → run (step framework) w more = some w' →
      more.length ≤ w.remaining ∧ ((∀ m : Move, m.Winds → step framework w' m = none) → AtRest framework w') := by
  have hi : Inv framework w ∧ w.permits.Open := ⟨inv_run h, open_run h⟩
  have hdrains := dispatch_drains framework
  refine ⟨hdrains.settles hi, fun more w' hwinds hrun => ⟨?_, fun hstuck => ?_⟩⟩
  · have hbound := hdrains.bounded hi hwinds hrun
    omega
  · exact hdrains.stuck (hdrains.run_keeps hi hwinds hrun) hstuck

/-- `slow` runs one at a time, and one invocation of it is running. -/
theorem capacity_returns_slow :
    let slow : SlashCommand Unit :=
      .leaf ⟨"slow", "Exercise concurrency limits", []⟩
        { handler := fun _ data => (.ok (), data), policy := { maxConcurrency := some 1 } }
    let interaction : Interaction :=
      ⟨1, 2, .applicationCommand, "token", none, none, none, none, .ok (some ⟨"slow", .chatInput, []⟩)⟩
    ∃ (framework : Framework Unit) (w : World Unit), framework.registry.get "slow" = some slow ∧
      run (step framework) (World.start framework false fun _ => false)
        [.begin (interactionEvent interaction) none, .enter 0 true, .reserve 0, .box 0, .spawn 0, .poll 0] = some w ∧
      (w.permits.leaf ["slow"]).available = 0 ∧
      ∃ more w', (∀ m ∈ more, m.Winds) ∧ run (step framework) w more = some w' ∧ AtRest framework w' := by
  intro slow interaction
  obtain ⟨framework, hget⟩ := exists_framework slow rfl
  let prepared : PreparedCommand Unit :=
    ⟨"slow", fun _ data => (.ok (), data), { maxConcurrency := some 1 },
      ⟨interaction, ⟨"slow", .chatInput, []⟩, ["slow"], [], none⟩, framework.beforeHooks, framework.afterHooks,
      framework.errorHandler⟩
  have hj : jobOf (prepareDispatch framework (interactionEvent interaction) none) = .ok (.command prepared) := by
    rw [@prepareDispatch_registered Unit framework interaction none _ slow (.inl rfl) rfl rfl hget]
    rfl
  have hslot : Job.leafSlot (.command prepared) = some ["slow"] := rfl
  have hlimit : leafLimit framework ["slow"] = some 1 := (jobOf_registered hj).symm
  have hfree : framework.maxConcurrentCommands ≠ 0 := framework.limited
  have hrun : ∃ w, run (step framework) (World.start framework false fun _ => false)
      [.begin (interactionEvent interaction) none, .enter 0 true, .reserve 0, .box 0, .spawn 0, .poll 0] = some w ∧
        (w.permits.leaf ["slow"]).available = 0 := by
    simp [run, step, hj, World.start, World.put, takeLeaf, takeGlobal, Semaphore.tryAcquire, Semaphore.acquire, hslot,
      hlimit, hfree]
  obtain ⟨w, hw, hnone⟩ := hrun
  exact ⟨framework, w, hget, hw, hnone, (capacity_returns framework _ w hw).1⟩

end GloamCommands.Dispatch
