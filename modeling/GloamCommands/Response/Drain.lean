/-
  GloamCommands.Response.Drain — no response call waits forever
  (crates/gloam-commands/src/response.rs).

  The machine of `Response.Failures`: any number of clones of one context, with one mutex
  between them, requests that fail or are refused, and futures that are dropped anywhere
  on the way. The environment answers every request in some way; nothing else is asked
  of it, neither fairness nor an order.
  - `Held`: who has the lock is past it, and can go on.
  - `calls_return`: from every reachable state the calls under way return, in whatever
    order they go on, each exactly once and after a bounded number of moves, and the lock
    is free then. No call has to be dropped for it.
-/

import GloamCommands.Lib.Drain
import GloamCommands.Response.Failures
import Mathlib.Algebra.BigOperators.Group.Finset.Basic
import Mathlib.Algebra.Order.BigOperators.Group.Finset

namespace GloamCommands.Response

open Lib (Drains run run_invariant)

variable {δ E ρ : Type} {interaction : Interaction} {handle : δ → Request E → Option (δ × ρ)}

/-! ## What is left of a call -/

def Pc.remaining : Pc E ρ → Nat
  | .idle => 0
  | .waiting _ => 8
  | .holding _ => 7
  | .planned _ _ => 6
  | .unlocked _ _ => 5
  | .inFlight _ _ => 4
  | .landed _ _ _ => 3
  | .answered _ _ _ => 2
  | .finished _ _ => 1

def Pc.engaged : Pc E ρ → Bool
  | .idle => false
  | .waiting _ => false
  | _ => true

def Act.Winds : Act E → Prop
  | .move (.call _) => False
  | .move _ => True
  | _ => False

def Held (w : World δ E ρ) : Prop := ∀ t, w.owner = some t → (w.pc t).engaged = true

def AtRest (w : World δ E ρ) : Prop := (∀ t, w.pc t = .idle) ∧ w.owner = none

theorem held_goto {w w' : World δ E ρ} {t : Nat} {p : Pc E ρ} (h : Held w) (hpc : w'.pc = Function.update w.pc t p)
    (howner : ∀ u, w'.owner = some u → u ≠ t ∧ w.owner = some u ∨ u = t ∧ p.engaged = true) : Held w' := by
  intro u hu
  rw [hpc]
  rcases howner u hu with ⟨hne, hold⟩ | ⟨rfl, hp⟩
  · rw [Function.update_of_ne hne]
    exact h u hold
  · rw [Function.update_self]
    exact hp

theorem held_keep {w w' : World δ E ρ} {t : Nat} {p : Pc E ρ} (h : Held w) (hpc : w'.pc = Function.update w.pc t p)
    (howner : w'.owner = w.owner) (hp : (w.pc t).engaged = true → p.engaged = true) : Held w' := by
  refine held_goto h hpc fun u hu => ?_
  rw [howner] at hu
  by_cases ht : u = t
  · subst ht
    exact .inr ⟨rfl, hp (h u hu)⟩
  · exact .inl ⟨ht, hu⟩

theorem held_give {w w' : World δ E ρ} {t : Nat} {p : Pc E ρ} (h : Held w) (hpc : w'.pc = Function.update w.pc t p)
    (howner : w'.owner = if w.owner = some t then none else w.owner) : Held w' := by
  refine held_goto h hpc fun u hu => ?_
  rw [howner] at hu
  split at hu
  · cases hu
  · rename_i hnot
    refine .inl ⟨fun ht => hnot ?_, hu⟩
    rw [hu, ht]

theorem held_moves {w w' : World δ E ρ} {m : Nat × Move E} (h : Held w) (hm : Moves interaction handle w m w') :
    Held w' := by
  cases hm with
  | call hpc =>
    refine held_keep h rfl rfl fun hengaged => ?_
    rw [hpc] at hengaged
    cases hengaged
  | acquire hpc ho => exact held_goto h rfl fun u hu => .inr ⟨(Option.some.inj hu).symm, rfl⟩
  | refuse => exact held_keep h rfl rfl fun _ => rfl
  | plan => exact held_keep h rfl rfl fun _ => rfl
  | unlock => exact held_goto h rfl fun u hu => (by cases hu)
  | send => exact held_keep h rfl rfl fun _ => rfl
  | land => exact held_keep h rfl rfl fun _ => rfl
  | answer => exact held_keep h rfl rfl fun _ => rfl
  | fail => exact held_keep h rfl rfl fun _ => rfl
  | record => exact held_keep h rfl rfl fun _ => rfl
  | settle => exact held_keep h rfl rfl fun _ => rfl
  | finish => exact held_give h rfl rfl

/-! ## Going on -/

/-- A call's next move brings it nearer to its end. -/
theorem moves_remaining {w w' : World δ E ρ} {t : Nat} {move : Move E} (hw : (Act.move move).Winds)
    (hm : Moves interaction handle w (t, move) w') :
    ∃ p, w'.pc = Function.update w.pc t p ∧ p.remaining < (w.pc t).remaining := by
  cases hm with
  | call => exact absurd hw id
  | acquire hpc => exact ⟨_, rfl, by simp [hpc, Pc.remaining]⟩
  | refuse hpc => exact ⟨_, rfl, by simp [hpc, Pc.remaining]⟩
  | plan hpc => exact ⟨_, rfl, by simp [hpc, Pc.remaining]⟩
  | unlock hpc => exact ⟨_, rfl, by simp [hpc, Pc.remaining]⟩
  | send hpc =>
    rcases hpc with ⟨hpc, -⟩ | hpc
    · exact ⟨_, rfl, by simp [hpc, Pc.remaining]⟩
    · exact ⟨_, rfl, by simp [hpc, Pc.remaining]⟩
  | land hpc => exact ⟨_, rfl, by simp [hpc, Pc.remaining]⟩
  | answer hpc => exact ⟨_, rfl, by simp [hpc, Pc.remaining]⟩
  | fail hpc =>
    rcases hpc with hpc | ⟨response, hpc⟩
    · exact ⟨_, rfl, by simp [hpc, Pc.remaining]⟩
    · exact ⟨_, rfl, by simp [hpc, Pc.remaining]⟩
  | record hpc => exact ⟨_, rfl, by simp [hpc, Pc.remaining]⟩
  | settle hpc => exact ⟨_, rfl, by simp [hpc, Pc.remaining]⟩
  | finish hpc => exact ⟨_, rfl, by simp [hpc, Pc.remaining]⟩

theorem engaged_goes {w : World δ E ρ} {t : Nat} (h : (w.pc t).engaged = true) :
    ∃ move : Move E, (Act.move move).Winds ∧ (step interaction handle w (t, move)).isSome := by
  cases hpc : w.pc t with
  | idle =>
    rw [hpc] at h
    cases h
  | waiting =>
    rw [hpc] at h
    cases h
  | holding call =>
    refine ⟨.decide, trivial, ?_⟩
    cases hd : call.decide interaction w.state <;> simp [step, hpc, hd]
  | planned call plan =>
    cases hu : call.unlocks with
    | true => exact ⟨.unlock, trivial, by simp [step, hpc, hu]⟩
    | false => exact ⟨.send, trivial, by simp [step, hpc, hu]⟩
  | unlocked call plan => exact ⟨.send, trivial, by simp [step, hpc]⟩
  | inFlight call plan => exact ⟨.fail (.gloamwire "timeout"), trivial, by simp [step, hpc]⟩
  | landed call plan response => exact ⟨.answer, trivial, by simp [step, hpc]⟩
  | answered call plan outcome =>
    refine ⟨.update, trivial, ?_⟩
    rcases outcome with error | response
    · simp [step, hpc]
    · cases hu : call.unlocks <;> simp [step, hpc, hu]
  | finished call outcome => exact ⟨.finish, trivial, by simp [step, hpc]⟩

/-- Unless the machine is at rest, somebody can go on. -/
theorem somebody_goes {w : World δ E ρ} (h : Held w) (hrest : ¬ AtRest w) :
    ∃ (t : Nat) (move : Move E), (Act.move move).Winds ∧ (step interaction handle w (t, move)).isSome := by
  cases ho : w.owner with
  | some t =>
    obtain ⟨move, hmove⟩ := @engaged_goes δ E ρ interaction handle w t (h t ho)
    exact ⟨t, move, hmove⟩
  | none =>
    have hbusy : ∃ t, w.pc t ≠ .idle := by
      by_contra hno
      exact hrest ⟨fun t => by_contra fun hne => hno ⟨t, hne⟩, ho⟩
    obtain ⟨t, hbusy⟩ := hbusy
    cases hpc : w.pc t with
    | idle => exact absurd hpc hbusy
    | waiting call => exact ⟨t, .acquire, trivial, by simp [step, hpc, ho]⟩
    | _ =>
      obtain ⟨move, hmove⟩ := @engaged_goes δ E ρ interaction handle w t (by rw [hpc]; rfl)
      exact ⟨t, move, hmove⟩

/-! ## Returns -/

def Event.returnedBy (t : Nat) : Event E ρ → Bool
  | .returned task _ _ => task == t
  | _ => false

def Pc.busy : Pc E ρ → Bool
  | .idle => false
  | _ => true

def owed (w : World δ E ρ) (t : Nat) : Nat := w.trace.countP (Event.returnedBy t) + (w.pc t).busy.toNat

theorem owed_goto {w w' : World δ E ρ} {t u : Nat} {p : Pc E ρ} {events : List (Event E ρ)}
    (hpc : w'.pc = Function.update w.pc t p) (htrace : w'.trace = w.trace ++ events)
    (hevents : ∀ event ∈ events, ∀ u, event.returnedBy u = false) (hbusy : p.busy = (w.pc t).busy) :
    owed w' u = owed w u := by
  have hnone : events.countP (Event.returnedBy u) = 0 :=
    List.countP_eq_zero.mpr fun event he => by rw [hevents event he u]; exact Bool.false_ne_true
  unfold owed
  rw [htrace, List.countP_append, hnone, Nat.add_zero, hpc]
  by_cases hu : u = t
  · subst hu
    rw [Function.update_self, hbusy]
  · rw [Function.update_of_ne hu]

theorem owed_quiet {w w' : World δ E ρ} {t u : Nat} {p : Pc E ρ} (hpc : w'.pc = Function.update w.pc t p)
    (htrace : w'.trace = w.trace) (hbusy : p.busy = (w.pc t).busy) : owed w' u = owed w u :=
  owed_goto hpc (htrace.trans (List.append_nil _).symm) (fun _ he => (by cases he)) hbusy

theorem moves_owed {w w' : World δ E ρ} {t : Nat} {move : Move E} (hw : (Act.move move).Winds)
    (hm : Moves interaction handle w (t, move) w') (u : Nat) : owed w' u = owed w u := by
  cases hm with
  | call => exact absurd hw id
  | acquire hpc => exact owed_quiet rfl rfl (by rw [hpc]; rfl)
  | refuse hpc => exact owed_quiet rfl rfl (by rw [hpc]; rfl)
  | plan hpc => exact owed_quiet rfl rfl (by rw [hpc]; rfl)
  | unlock hpc => exact owed_quiet rfl rfl (by rw [hpc]; rfl)
  | send hpc =>
    refine owed_goto rfl rfl (List.forall_mem_singleton.mpr fun _ => rfl) ?_
    rcases hpc with ⟨hpc, -⟩ | hpc
    · rw [hpc]
      rfl
    · rw [hpc]
      rfl
  | land hpc => exact owed_goto rfl rfl (List.forall_mem_singleton.mpr fun _ => rfl) (by rw [hpc]; rfl)
  | answer hpc => exact owed_goto rfl rfl (List.forall_mem_singleton.mpr fun _ => rfl) (by rw [hpc]; rfl)
  | fail hpc =>
    refine owed_goto rfl rfl (List.forall_mem_singleton.mpr fun _ => rfl) ?_
    rcases hpc with hpc | ⟨response, hpc⟩
    · rw [hpc]
      rfl
    · rw [hpc]
      rfl
  | record hpc => exact owed_goto rfl rfl (List.forall_mem_singleton.mpr fun _ => rfl) (by rw [hpc]; rfl)
  | settle hpc => exact owed_quiet rfl rfl (by rw [hpc]; rfl)
  | @finish t call outcome hpc =>
    -- the return takes the place of the call that owed it
    unfold owed
    dsimp only [World.emit, World.goto]
    rw [List.countP_append, List.countP_singleton]
    by_cases hu : u = t
    · subst hu
      rw [Function.update_self, hpc]
      simp [Event.returnedBy, Pc.busy]
    · rw [Function.update_of_ne hu]
      simp [Event.returnedBy, Ne.symm hu]

/-! ## The machine with drops -/

theorem step_pc {w w' : World δ E ρ} {t : Nat} {move : Move E} (hm : Moves interaction handle w (t, move) w') :
    ∃ p, w'.pc = Function.update w.pc t p := by
  cases hm <;> exact ⟨_, rfl⟩

theorem act_pc {w w' : Tracked δ E ρ} {t : Nat} {act : Act E} (h : stepDropping interaction handle w (t, act) = some w') :
    ∀ u, u ≠ t → w'.world.pc u = w.world.pc u := by
  intro u hu
  cases act with
  | move move =>
    simp only [stepDropping] at h
    split at h
    · cases h
    · rename_i world hstep
      cases h
      obtain ⟨p, hp⟩ := step_pc (step_moves hstep)
      show world.pc u = _
      rw [hp, Function.update_of_ne hu]
  | drop =>
    simp only [stepDropping] at h
    split at h
    · cases h
      exact Function.update_of_ne hu ..
    · cases h
  | landAbandoned index =>
    simp only [stepDropping] at h
    split at h
    · cases h
    · split at h
      · cases h
      · cases h
        rfl

theorem act_held {w w' : Tracked δ E ρ} {m : Nat × Act E} (hi : Held w.world)
    (h : stepDropping interaction handle w m = some w') : Held w'.world := by
  obtain ⟨t, act⟩ := m
  cases act with
  | move move =>
    simp only [stepDropping] at h
    split at h
    · cases h
    · rename_i world hstep
      cases h
      exact held_moves hi (step_moves hstep)
  | drop =>
    simp only [stepDropping] at h
    split at h
    · cases h
      exact held_give hi rfl rfl
    · cases h
  | landAbandoned index =>
    simp only [stepDropping] at h
    split at h
    · cases h
    · split at h
      · cases h
      · cases h
        exact hi

theorem run_pc {acts : List (Nat × Act E)} : ∀ {w w' : Tracked δ E ρ}, run (stepDropping interaction handle) w acts = some w' →
    ∀ t, t ∉ acts.map (·.1) → w'.world.pc t = w.world.pc t := by
  induction acts with
  | nil =>
    intro w w' h t _
    cases h
    rfl
  | cons m rest ih =>
    intro w w' h t ht
    obtain ⟨mid, hmid, hrest⟩ := Lib.run_cons h
    rw [List.map_cons, List.mem_cons, not_or] at ht
    exact (ih hrest t ht.2).trans (act_pc hmid t ht.1)

/-- The calls under way in `w` have returned in `w'`, each once, and nothing is left. -/
structure Returned (w w' : World δ E ρ) : Prop where
  rest : AtRest w'
  once : ∀ t, w'.trace.countP (Event.returnedBy t) = w.trace.countP (Event.returnedBy t) + (w.pc t).busy.toNat

/-- What winding up keeps: the lock's holder, who has made calls at all, what is owed. -/
structure Winding (tasks : Finset Nat) (w : World δ E ρ) (w' : Tracked δ E ρ) : Prop where
  held : Held w'.world
  idle : ∀ t, t ∉ tasks → w'.world.pc t = .idle
  owes : ∀ t, owed w'.world t = owed w t

theorem winding_step {tasks : Finset Nat} {start : World δ E ρ} {w w' : Tracked δ E ρ} {m : Nat × Act E}
    (hi : Winding tasks start w) (hw : m.2.Winds) (h : stepDropping interaction handle w m = some w') :
    Winding tasks start w' ∧
      ∑ t ∈ tasks, (w'.world.pc t).remaining < ∑ t ∈ tasks, (w.world.pc t).remaining := by
  have hheld := act_held hi.held h
  obtain ⟨t, act⟩ := m
  cases act with
  | drop => exact absurd hw id
  | landAbandoned => exact absurd hw id
  | move move =>
    have hothers := act_pc h
    simp only [stepDropping] at h
    split at h
    · cases h
    · rename_i world hstep
      cases h
      have hm := step_moves hstep
      obtain ⟨p, hpc, hlower⟩ := moves_remaining hw hm
      have ht : t ∈ tasks := by
        by_contra hnot
        rw [hi.idle t hnot] at hlower
        exact absurd hlower (Nat.not_lt_zero _)
      refine ⟨⟨hheld, fun u hu => ?_, fun u => (moves_owed hw hm u).trans (hi.owes u)⟩, ?_⟩
      · rw [hothers u fun heq => hu (heq ▸ ht)]
        exact hi.idle u hu
      · refine Finset.sum_lt_sum (fun u _ => ?_) ⟨t, ht, ?_⟩
        · by_cases hu : u = t
          · subst hu
            show (world.pc u).remaining ≤ _
            rw [hpc, Function.update_self]
            exact Nat.le_of_lt hlower
          · rw [hothers u hu]
        · show (world.pc t).remaining < _
          rw [hpc, Function.update_self]
          exact hlower

theorem response_drains (tasks : Finset Nat) (start : World δ E ρ) :
    Drains (stepDropping interaction handle) (fun m => m.2.Winds) (Winding tasks start) (fun w => Returned start w.world)
      (fun w => ∑ t ∈ tasks, (w.world.pc t).remaining) where
  keeps hi hw hs := (winding_step hi hw hs).1
  lowers hi hw hs := (winding_step hi hw hs).2
  goes {w} hi hrest := by
    have hbusy : ¬ AtRest w.world := by
      intro hidle
      refine hrest ⟨hidle, fun t => ?_⟩
      have howes := hi.owes t
      unfold owed at howes
      rw [hidle.1 t] at howes
      exact howes
    obtain ⟨t, move, hw, hsome⟩ := @somebody_goes δ E ρ interaction handle w.world hi.held hbusy
    obtain ⟨world, hstep⟩ := Option.isSome_iff_exists.mp hsome
    have hgoes : (stepDropping interaction handle w (t, .move move)).isSome := by simp [stepDropping, hstep]
    exact ⟨(t, .move move), _, hw, (Option.some_get hgoes).symm⟩

/-- From every reachable state, with calls that failed and calls that were dropped before:
    the calls under way return, each exactly once, and leave the lock free. They can, and
    however they go on, it takes no more moves than they have left, and when nobody can go
    on any more they have. -/
theorem calls_return {server : δ} {acts : List (Nat × Act E)} {w : Tracked δ E ρ}
    (h : run (stepDropping interaction handle) (Tracked.start server) acts = some w) :
    (∃ more w', (∀ m ∈ more, Act.Winds m.2) ∧ run (stepDropping interaction handle) w more = some w' ∧
      Returned w.world w'.world) ∧
    ∀ more w', (∀ m ∈ more, Act.Winds m.2) → run (stepDropping interaction handle) w more = some w' →
      more.length ≤ ∑ t ∈ (acts.map (·.1)).toFinset, (w.world.pc t).remaining ∧
        ((∀ m : Nat × Act E, m.2.Winds → stepDropping interaction handle w' m = none) → Returned w.world w'.world) := by
  have hheld : Held w.world := run_invariant (I := fun w : Tracked δ E ρ => Held w.world) (fun _ _ _ hi hs => act_held hi hs) h
    fun _ ho => (by cases ho)
  have hi : Winding (acts.map (·.1)).toFinset w.world w := by
    refine ⟨hheld, fun t ht => ?_, fun _ => rfl⟩
    exact run_pc h t fun hmem => ht (List.mem_toFinset.mpr hmem)
  have hdrains := @response_drains δ E ρ interaction handle (acts.map (·.1)).toFinset w.world
  refine ⟨hdrains.settles hi, fun more w' hwinds hrun => ⟨?_, fun hstuck => ?_⟩⟩
  · have hbound := hdrains.bounded hi hwinds hrun
    omega
  · exact hdrains.stuck (hdrains.run_keeps hi hwinds hrun) hstuck

/-- A reply is in flight, a deferral waits for the lock, and a followup has been dropped. -/
theorem calls_return_waiting :
    let interaction : Interaction := ⟨1, 2, .applicationCommand, "token", none, none, none, none, .ok none⟩
    let acts : List (Nat × Act Unit) := [(0, .move (.call (Context.reply "done"))), (1, .move (.call Context.defer)),
      (0, .move .acquire), (0, .move .decide), (2, .move (.call (Context.followup "more"))), (0, .move .send), (2, .drop)]
    ∃ w : Tracked Unit Unit Unit, run (stepDropping interaction accepts) (Tracked.start ()) acts = some w ∧
      w.world.owner = some 0 ∧ ∃ more w', (∀ m ∈ more, Act.Winds m.2) ∧
        run (stepDropping interaction accepts) w more = some w' ∧ Returned w.world w'.world := by
  intro interaction acts
  exact ⟨_, rfl, rfl, (@calls_return Unit Unit Unit interaction accepts () acts _ rfl).1⟩

end GloamCommands.Response
