/-
  GloamCommands.Response.Machine — clones of one context calling response helpers.

  Actors. Any number of tasks hold a clone of the context; a task makes its calls one
  after another, in any number and of any kind. The clones share one `ResponseState`
  behind a mutex. A call waits for the lock, reads the state, and is refused or makes
  its plan. `followup` gives the lock back and then sends; every other call sends,
  waits for the answer and records the new state with the lock held.

  Discord is `handle`: what it does with a request, or `none` where it refuses. A request
  lands (`land`) some time after it is sent, and its answer comes some time after that;
  the answer may be an error although the request landed (`fail`). All that is relied on
  is what is documented: `handle` may refuse more, know more and answer more than that
  (`Documents`), and the runs are still runs against what is documented (`run_seen`).

  The trace holds what an observer of the REST client and of the calls sees.
-/

import GloamCommands.Lib.Runs
import GloamCommands.Response.State
import Mathlib.Logic.Function.Basic

namespace GloamCommands.Response

open Lib (run run_map)

inductive Pc (E ρ : Type) where
  | idle
  | waiting (call : Call E)
  | holding (call : Call E)
  | planned (call : Call E) (plan : Plan E)
  | unlocked (call : Call E) (plan : Plan E)
  | inFlight (call : Call E) (plan : Plan E)
  | landed (call : Call E) (plan : Plan E) (response : ρ)
  | answered (call : Call E) (plan : Plan E) (outcome : Except Error ρ)
  | finished (call : Call E) (outcome : Except Error ρ)

inductive Event (E ρ : Type) where
  | sent (task : Nat) (request : Request E)
  | landed (task : Nat) (request : Request E)
  | answered (task : Nat) (request : Request E) (outcome : Except Error ρ)
  | recorded (task : Nat) (request : Request E) (state : ResponseState)
  | returned (task : Nat) (call : Call E) (outcome : Except Error ρ)

/-- `δ` is Discord's own state. -/
structure World (δ E ρ : Type) where
  server : δ
  state : ResponseState
  owner : Option Nat
  pc : Nat → Pc E ρ
  trace : List (Event E ρ)

inductive Move (E : Type) where
  | call (call : Call E)
  | acquire
  | decide
  | unlock
  | send
  | land
  | answer
  | fail (error : Error)
  | update
  | finish

variable {δ E ρ : Type}

def World.start (server : δ) : World δ E ρ := ⟨server, .pending, none, fun _ => .idle, []⟩

def World.goto (w : World δ E ρ) (t : Nat) (pc : Pc E ρ) : World δ E ρ :=
  { w with pc := Function.update w.pc t pc }

def World.emit (w : World δ E ρ) (event : Event E ρ) : World δ E ρ := { w with trace := w.trace ++ [event] }

variable (interaction : Interaction) (handle : δ → Request E → Option (δ × ρ))

/-- One move of task `m.1`. -/
def step (w : World δ E ρ) (m : Nat × Move E) : Option (World δ E ρ) :=
  let t := m.1
  match m.2, w.pc t with
  | .call call, .idle => some (w.goto t (.waiting call))
  | .acquire, .waiting call =>
    if w.owner = none then some { w.goto t (.holding call) with owner := some t } else none
  | .decide, .holding call =>
    match call.decide interaction w.state with
    | .error error => some (w.goto t (.finished call (.error error)))
    | .ok plan => some (w.goto t (.planned call plan))
  | .unlock, .planned call plan =>
    if call.unlocks then some { w.goto t (.unlocked call plan) with owner := none } else none
  | .send, .planned call plan =>
    if call.unlocks then none else some ((w.goto t (.inFlight call plan)).emit (.sent t plan.request))
  | .send, .unlocked call plan => some ((w.goto t (.inFlight call plan)).emit (.sent t plan.request))
  | .land, .inFlight call plan =>
    match handle w.server plan.request with
    | none => none
    | some (server, response) =>
      some { (w.goto t (.landed call plan response)).emit (.landed t plan.request) with server := server }
  | .answer, .landed call plan response =>
    some ((w.goto t (.answered call plan (.ok response))).emit (.answered t plan.request (.ok response)))
  | .fail error, .inFlight call plan =>
    some ((w.goto t (.answered call plan (.error error))).emit (.answered t plan.request (.error error)))
  -- the request landed and its answer was lost
  | .fail error, .landed call plan _ =>
    some ((w.goto t (.answered call plan (.error error))).emit (.answered t plan.request (.error error)))
  | .update, .answered call plan outcome =>
    match outcome with
    | .error error => some (w.goto t (.finished call (.error error)))
    | .ok response =>
      if call.unlocks then some (w.goto t (.finished call (.ok response)))
      else
        some { (w.goto t (.finished call (.ok response))).emit (.recorded t plan.request plan.next) with
               state := plan.next }
  | .finish, .finished call outcome =>
    -- the guard is dropped, if the call still has it
    some { (w.goto t .idle).emit (.returned t call outcome) with owner := if w.owner = some t then none else w.owner }
  | _, _ => none

/-! ## What a move can do -/

inductive Moves (w : World δ E ρ) : Nat × Move E → World δ E ρ → Prop
  | call {t : Nat} {call : Call E} : w.pc t = .idle → Moves w (t, .call call) (w.goto t (.waiting call))
  | acquire {t : Nat} {call : Call E} : w.pc t = .waiting call → w.owner = none →
      Moves w (t, .acquire) { w.goto t (.holding call) with owner := some t }
  | refuse {t : Nat} {call : Call E} {error : Error} : w.pc t = .holding call →
      call.decide interaction w.state = .error error →
      Moves w (t, .decide) (w.goto t (.finished call (.error error)))
  | plan {t : Nat} {call : Call E} {plan : Plan E} : w.pc t = .holding call →
      call.decide interaction w.state = .ok plan → Moves w (t, .decide) (w.goto t (.planned call plan))
  | unlock {t : Nat} {call : Call E} {plan : Plan E} : w.pc t = .planned call plan → call.unlocks = true →
      Moves w (t, .unlock) { w.goto t (.unlocked call plan) with owner := none }
  | send {t : Nat} {call : Call E} {plan : Plan E} :
      (w.pc t = .planned call plan ∧ call.unlocks = false) ∨ w.pc t = .unlocked call plan →
      Moves w (t, .send) ((w.goto t (.inFlight call plan)).emit (.sent t plan.request))
  | land {t : Nat} {call : Call E} {plan : Plan E} {server : δ} {response : ρ} : w.pc t = .inFlight call plan →
      handle w.server plan.request = some (server, response) →
      Moves w (t, .land) { (w.goto t (.landed call plan response)).emit (.landed t plan.request) with server := server }
  | answer {t : Nat} {call : Call E} {plan : Plan E} {response : ρ} : w.pc t = .landed call plan response →
      Moves w (t, .answer)
        ((w.goto t (.answered call plan (.ok response))).emit (.answered t plan.request (.ok response)))
  | fail {t : Nat} {call : Call E} {plan : Plan E} {error : Error} :
      w.pc t = .inFlight call plan ∨ (∃ response, w.pc t = .landed call plan response) →
      Moves w (t, .fail error)
        ((w.goto t (.answered call plan (.error error))).emit (.answered t plan.request (.error error)))
  | record {t : Nat} {call : Call E} {plan : Plan E} {response : ρ} : w.pc t = .answered call plan (.ok response) →
      call.unlocks = false →
      Moves w (t, .update) { (w.goto t (.finished call (.ok response))).emit (.recorded t plan.request plan.next) with
        state := plan.next }
  | settle {t : Nat} {call : Call E} {plan : Plan E} {outcome : Except Error ρ} :
      w.pc t = .answered call plan outcome → (∀ response, outcome = .ok response → call.unlocks = true) →
      Moves w (t, .update) (w.goto t (.finished call outcome))
  | finish {t : Nat} {call : Call E} {outcome : Except Error ρ} : w.pc t = .finished call outcome →
      Moves w (t, .finish) { (w.goto t .idle).emit (.returned t call outcome) with
        owner := if w.owner = some t then none else w.owner }

variable {interaction handle}

theorem step_moves {w w' : World δ E ρ} {m : Nat × Move E} (h : step interaction handle w m = some w') :
    Moves interaction handle w m w' := by
  obtain ⟨t, move⟩ := m
  cases move <;> cases hpc : w.pc t <;> simp only [step, hpc] at h <;> try cases h
  case call.idle.refl call => exact .call hpc
  case acquire.waiting call =>
    split at h
    · rename_i ho
      cases h
      exact .acquire hpc ho
    · cases h
  case decide.holding call =>
    split at h
    · rename_i hd
      cases h
      exact .refuse hpc hd
    · rename_i hd
      cases h
      exact .plan hpc hd
  case unlock.planned call plan =>
    split at h
    · rename_i hu
      cases h
      exact .unlock hpc hu
    · cases h
  case send.planned call plan =>
    split at h
    · cases h
    · rename_i hu
      cases h
      exact .send (.inl ⟨hpc, by simpa using hu⟩)
  case send.unlocked.refl call plan => exact .send (.inr hpc)
  case land.inFlight call plan =>
    split at h
    · cases h
    · rename_i hh
      cases h
      exact .land hpc hh
  case answer.landed.refl call plan response => exact .answer hpc
  case fail.inFlight.refl call plan => exact .fail (.inl hpc)
  case fail.landed.refl call plan response => exact .fail (.inr ⟨response, hpc⟩)
  case update.answered call plan outcome =>
    split at h
    · cases h
      exact .settle hpc (by intro r hr; cases hr)
    · split at h
      · rename_i hu
        cases h
        exact .settle hpc (fun _ _ => hu)
      · rename_i hu
        cases h
        exact .record hpc (by simpa using hu)
  case finish.finished.refl call outcome => exact .finish hpc

/-! ## What is documented -/

section Documented

variable {δ' ρ' : Type} {documented : δ' → Request E → Option (δ' × ρ')} {view : δ → δ'} {shows : ρ → ρ'}

/-- Where `handle` does not refuse a request, it does as documented; `view` and `shows` are
    what the documentation speaks of. -/
def Documents (documented : δ' → Request E → Option (δ' × ρ')) (handle : δ → Request E → Option (δ × ρ)) (view : δ → δ')
    (shows : ρ → ρ') : Prop :=
  ∀ server request server' response, handle server request = some (server', response) →
    documented (view server) request = some (view server', shows response)

def Pc.map (shows : ρ → ρ') : Pc E ρ → Pc E ρ'
  | idle => .idle
  | waiting call => .waiting call
  | holding call => .holding call
  | planned call plan => .planned call plan
  | unlocked call plan => .unlocked call plan
  | inFlight call plan => .inFlight call plan
  | landed call plan response => .landed call plan (shows response)
  | answered call plan outcome => .answered call plan (outcome.map shows)
  | finished call outcome => .finished call (outcome.map shows)

def Event.map (shows : ρ → ρ') : Event E ρ → Event E ρ'
  | sent task request => .sent task request
  | landed task request => .landed task request
  | answered task request outcome => .answered task request (outcome.map shows)
  | recorded task request state => .recorded task request state
  | returned task call outcome => .returned task call (outcome.map shows)

/-- The world as far as the documentation goes. -/
def World.seen (view : δ → δ') (shows : ρ → ρ') (w : World δ E ρ) : World δ' E ρ' where
  server := view w.server
  state := w.state
  owner := w.owner
  pc t := (w.pc t).map shows
  trace := w.trace.map (Event.map shows)

theorem seen_pc {w : World δ E ρ} {t : Nat} {p : Pc E ρ} (h : w.pc t = p) :
    (w.seen view shows).pc t = p.map shows :=
  congrArg (Pc.map shows) h

theorem seen_goto (w : World δ E ρ) (t : Nat) (p : Pc E ρ) :
    (w.goto t p).seen view shows = (w.seen view shows).goto t (p.map shows) := by
  have hpc : (fun u => (Function.update w.pc t p u).map shows) =
      Function.update (fun u => (w.pc u).map shows) t (p.map shows) := by
    funext u
    by_cases hu : u = t
    · subst hu
      rw [Function.update_self, Function.update_self]
    · rw [Function.update_of_ne hu, Function.update_of_ne hu]
  exact congrArg (fun pc => (⟨view w.server, w.state, w.owner, pc, w.trace.map (Event.map shows)⟩ : World δ' E ρ')) hpc

theorem seen_emit (w : World δ E ρ) (event : Event E ρ) :
    (w.emit event).seen view shows = (w.seen view shows).emit (event.map shows) :=
  congrArg (fun trace => (⟨view w.server, w.state, w.owner, fun t => (w.pc t).map shows, trace⟩ : World δ' E ρ'))
    (List.map_append ..)

/-- A move against `handle` is one against what is documented. -/
theorem step_seen (h : Documents documented handle view shows) (w : World δ E ρ) (m : Nat × Move E) (w' : World δ E ρ)
    (hs : step interaction handle w m = some w') :
    step interaction documented (w.seen view shows) m = some (w'.seen view shows) := by
  cases step_moves hs with
  | call hpc => rw [seen_goto, step, seen_pc hpc]; rfl
  | @acquire t call hpc ho =>
    show _ = some { (w.goto t (.holding call)).seen view shows with owner := some t }
    rw [seen_goto, step, seen_pc hpc]
    exact if_pos ho
  | @refuse t call error hpc hd =>
    rw [seen_goto, step, seen_pc hpc]
    simp only [Pc.map, World.seen, hd, Except.map]
  | plan hpc hd =>
    rw [seen_goto, step, seen_pc hpc]
    simp only [Pc.map, World.seen, hd]
  | @unlock t call plan hpc hu =>
    show _ = some { (w.goto t (.unlocked call plan)).seen view shows with owner := none }
    rw [seen_goto, step, seen_pc hpc]
    exact if_pos hu
  | send hpc =>
    rw [seen_emit, seen_goto]
    rcases hpc with ⟨hpc, hu⟩ | hpc
    · rw [step, seen_pc hpc]
      exact if_neg (ne_true_of_eq_false hu)
    · rw [step, seen_pc hpc]
      rfl
  | @land t call plan server response hpc hh =>
    show _ = some { ((w.goto t (.landed call plan response)).emit (.landed t plan.request)).seen view shows with
      server := view server }
    rw [seen_emit, seen_goto, step, seen_pc hpc]
    have hd : documented (w.seen view shows).server plan.request = some (view server, shows response) := h _ _ _ _ hh
    simp only [Pc.map, hd, Event.map]
  | answer hpc => rw [seen_emit, seen_goto, step, seen_pc hpc]; rfl
  | fail hpc =>
    rw [seen_emit, seen_goto]
    rcases hpc with hpc | ⟨response, hpc⟩
    · rw [step, seen_pc hpc]
      rfl
    · rw [step, seen_pc hpc]
      rfl
  | @record t call plan response hpc hu =>
    show _ = some { ((w.goto t (.finished call (.ok response))).emit (.recorded t plan.request plan.next)).seen view shows with
      state := plan.next }
    rw [seen_emit, seen_goto, step, seen_pc hpc]
    exact if_neg (ne_true_of_eq_false hu)
  | @settle t call plan outcome hpc hu =>
    rw [seen_goto, step, seen_pc hpc]
    cases outcome with
    | error error => rfl
    | ok response => exact if_pos (hu response rfl)
  | @finish t call outcome hpc =>
    show _ = some { ((w.goto t .idle).emit (.returned t call outcome)).seen view shows with
      owner := if w.owner = some t then none else w.owner }
    rw [seen_emit, seen_goto, step, seen_pc hpc]
    rfl

theorem run_seen (h : Documents documented handle view shows) {moves : List (Nat × Move E)} {start : δ} {w : World δ E ρ}
    (hrun : run (step interaction handle) (World.start start) moves = some w) :
    run (step interaction documented) (World.start (view start)) moves = some (w.seen view shows) :=
  run_map (step_seen h) hrun

end Documented

end GloamCommands.Response
