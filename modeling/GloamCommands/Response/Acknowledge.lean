/-
  GloamCommands.Response.Acknowledge — one acknowledgement, whatever the interleaving.

  A task between its decision and the record of its answer holds the lock, unless its
  call is `followup`; so its plan was made from the state that is still current
  (`LockInv.fresh`). Every clause below is a consequence: a create is sent from
  `Pending` only, and once one was answered with success the state leaves `Pending`
  before anybody else can decide anything.
  - `lock_inv`: the holder is unique and its plan is current.
  - `settles_effect`: a create or a delete answered with success is recorded, or its task
    still holds the lock with the answer in hand.
  - `acknowledgement_safety`: the clauses, for every run.
-/

import GloamCommands.Lib.Runs
import GloamCommands.Response.Machine

namespace GloamCommands.Response

open Lib (run run_invariant run_relates NeverAfter Preceded)

variable {δ E ρ : Type} {interaction : Interaction} {handle : δ → Request E → Option (δ × ρ)}

/-! ## The lock -/

def Pc.holds : Pc E ρ → Bool
  | .holding _ => true
  | .planned _ _ => true
  | .inFlight call _ => !call.unlocks
  | .landed call _ _ => !call.unlocks
  | .answered call _ _ => !call.unlocks
  | _ => false

def Pc.work : Pc E ρ → Option (Call E × Plan E)
  | .planned call plan => some (call, plan)
  | .unlocked call plan => some (call, plan)
  | .inFlight call plan => some (call, plan)
  | .landed call plan _ => some (call, plan)
  | .answered call plan _ => some (call, plan)
  | _ => none

variable (interaction) in
structure LockInv (w : World δ E ρ) : Prop where
  owned : ∀ t, (w.pc t).holds = true → w.owner = some t
  /-- A plan was made from some state; from the current one, if its task has the lock. -/
  fresh : ∀ t call plan, (w.pc t).work = some (call, plan) → ∃ state, Planned interaction call state plan ∧
    ((w.pc t).holds = true → state = w.state) ∧ (state ≠ .pending → w.state ≠ .pending)
  released : ∀ t call plan, w.pc t = .unlocked call plan → call.unlocks = true

theorem lock_start (server : δ) : LockInv interaction (World.start server : World δ E ρ) := by
  refine ⟨fun t h => ?_, fun t call plan h => ?_, fun t call plan h => ?_⟩ <;> cases h

/-- Task `t` moves to `p`; the lock changes hands and the state changes only under `t`. -/
theorem LockInv.goto {w w' : World δ E ρ} {t : Nat} {p : Pc E ρ} (hi : LockInv interaction w)
    (hpc : w'.pc = Function.update w.pc t p)
    (howner : w'.owner = w.owner ∨ w.owner = none ∨ w.owner = some t)
    (hstate : w'.state = w.state ∨ (w.owner = some t ∧ w'.state ≠ .pending))
    (hown : p.holds = true → w'.owner = some t)
    (hplan : ∀ call plan, p.work = some (call, plan) → ∃ state, Planned interaction call state plan ∧
      (p.holds = true → state = w'.state) ∧ (state ≠ .pending → w'.state ≠ .pending))
    (hrel : ∀ call plan, p = .unlocked call plan → call.unlocks = true) : LockInv interaction w' := by
  have hother : ∀ u, u ≠ t → w'.pc u = w.pc u := fun u hu => by rw [hpc, Function.update_of_ne hu]
  have hself : w'.pc t = p := by rw [hpc, Function.update_self]
  refine ⟨fun u hu => ?_, fun u call plan hu => ?_, fun u call plan hu => ?_⟩
  · by_cases h : u = t
    · subst h; rw [hself] at hu; exact hown hu
    · rw [hother u h] at hu
      have hw := hi.owned u hu
      rcases howner with ho | ho | ho
      · rw [ho]; exact hw
      · rw [ho] at hw; cases hw
      · rw [ho] at hw; exact absurd (Option.some.inj hw).symm h
  · by_cases h : u = t
    · subst h; rw [hself] at hu ⊢; exact hplan call plan hu
    · rw [hother u h] at hu ⊢
      obtain ⟨state, hp, hcur, hpend⟩ := hi.fresh u call plan hu
      rcases hstate with hs | ⟨ho, hs⟩
      · rw [hs]; exact ⟨state, hp, hcur, hpend⟩
      · refine ⟨state, hp, fun hh => ?_, fun _ => hs⟩
        have hw := hi.owned u hh
        rw [ho] at hw
        exact absurd (Option.some.inj hw).symm h
  · by_cases h : u = t
    · subst h; rw [hself] at hu; exact hrel call plan hu
    · rw [hother u h] at hu; exact hi.released u call plan hu

theorem LockInv.carry {w w' : World δ E ρ} {t : Nat} {p : Pc E ρ} (hi : LockInv interaction w)
    (hpc : w'.pc = Function.update w.pc t p) (howner : w'.owner = w.owner) (hstate : w'.state = w.state)
    (hwork : p.work = (w.pc t).work) (hholds : p.holds = (w.pc t).holds)
    (hrel : ∀ call plan, p = .unlocked call plan → call.unlocks = true) : LockInv interaction w' := by
  refine hi.goto hpc (.inl howner) (.inl hstate) (fun h => ?_) (fun call plan h => ?_) hrel
  · rw [howner]; exact hi.owned t (hholds ▸ h)
  · rw [hholds, hstate]; exact hi.fresh t call plan (hwork ▸ h)

theorem Planned.next_ne_pending {call : Call E} {state : ResponseState} {plan : Plan E}
    (h : Planned interaction call state plan) : plan.next ≠ .pending := by
  cases h with
  | initial => intro h; cases h
  | deferral => intro h; cases h
  | complete => intro h; cases h
  | later _ _ hs => rcases hs with rfl | rfl <;> (intro h; cases h)
  | edit => intro h; cases h
  | delete => intro h; cases h
  | followup _ _ hs => exact hs

/-- A helper that gives the lock back is a followup, which an acknowledged state allows. -/
theorem Planned.unlocks {call : Call E} {state : ResponseState} {plan : Plan E}
    (h : Planned interaction call state plan) (hu : call.unlocks = true) :
    state ≠ .pending ∧ ∃ a t d, plan.request = .createFollowupMessage a t d := by
  cases h with
  | followup _ _ hs => exact ⟨hs, _, _, _, rfl⟩
  | _ => cases hu

theorem lock_moves {w w' : World δ E ρ} {m : Nat × Move E} (hi : LockInv interaction w)
    (h : Moves interaction handle w m w') : LockInv interaction w' := by
  cases h with
  | call hpc =>
    exact hi.goto rfl (.inl rfl) (.inl rfl) (fun h => by cases h) (fun _ _ h => by cases h) (fun _ _ h => by cases h)
  | acquire hpc ho =>
    exact hi.goto rfl (.inr (.inl ho)) (.inl rfl) (fun _ => rfl) (fun _ _ h => by cases h) (fun _ _ h => by cases h)
  | refuse hpc hd =>
    exact hi.goto rfl (.inl rfl) (.inl rfl) (fun h => by cases h) (fun _ _ h => by cases h) (fun _ _ h => by cases h)
  | @plan t call plan hpc hd =>
    refine hi.goto rfl (.inl rfl) (.inl rfl) (fun _ => hi.owned t (by rw [hpc]; rfl)) (fun c p h => ?_)
      (fun _ _ h => by cases h)
    cases h
    exact ⟨w.state, decide_planned hd, fun _ => rfl, fun h => h⟩
  | @unlock t call plan hpc hu =>
    have ho : w.owner = some t := hi.owned t (by rw [hpc]; rfl)
    refine hi.goto rfl (.inr (.inr ho)) (.inl rfl) (fun h => by cases h) (fun c p h => ?_) (fun c p h => ?_)
    · cases h
      obtain ⟨state, hp, -, hpend⟩ := hi.fresh t call plan (by rw [hpc]; rfl)
      exact ⟨state, hp, (fun h => by cases h), hpend⟩
    · cases h; exact hu
  | @send t call plan hpc =>
    rcases hpc with ⟨hpc, hu⟩ | hpc
    · exact hi.carry rfl rfl rfl (by rw [hpc]; rfl) (by rw [hpc]; simp [Pc.holds, hu]) (fun _ _ h => by cases h)
    · have hu := hi.released t call plan hpc
      exact hi.carry rfl rfl rfl (by rw [hpc]; rfl) (by rw [hpc]; simp [Pc.holds, hu]) (fun _ _ h => by cases h)
  | land hpc _ =>
    exact hi.carry rfl rfl rfl (by rw [hpc]; rfl) (by rw [hpc]; rfl) (fun _ _ h => by cases h)
  | answer hpc =>
    exact hi.carry rfl rfl rfl (by rw [hpc]; rfl) (by rw [hpc]; rfl) (fun _ _ h => by cases h)
  | fail hpc =>
    rcases hpc with hpc | ⟨response, hpc⟩
    · exact hi.carry rfl rfl rfl (by rw [hpc]; rfl) (by rw [hpc]; rfl) (fun _ _ h => by cases h)
    · exact hi.carry rfl rfl rfl (by rw [hpc]; rfl) (by rw [hpc]; rfl) (fun _ _ h => by cases h)
  | @record t call plan response hpc hu =>
    have ho : w.owner = some t := hi.owned t (by rw [hpc]; simp [Pc.holds, hu])
    obtain ⟨state, hp, -, -⟩ := hi.fresh t call plan (by rw [hpc]; rfl)
    exact hi.goto rfl (.inl rfl) (.inr ⟨ho, hp.next_ne_pending⟩) (fun h => by cases h) (fun _ _ h => by cases h)
      (fun _ _ h => by cases h)
  | settle hpc _ =>
    exact hi.goto rfl (.inl rfl) (.inl rfl) (fun h => by cases h) (fun _ _ h => by cases h) (fun _ _ h => by cases h)
  | @finish t call outcome hpc =>
    refine hi.goto rfl ?_ (.inl rfl) (fun h => by cases h) (fun _ _ h => by cases h) (fun _ _ h => by cases h)
    by_cases ho : w.owner = some t
    · exact .inr (.inr ho)
    · left
      show (if w.owner = some t then none else w.owner) = w.owner
      rw [if_neg ho]

theorem lock_inv {moves : List (Nat × Move E)} {server : δ} {w : World δ E ρ}
    (h : run (step interaction handle) (World.start server) moves = some w) : LockInv interaction w :=
  run_invariant (fun _ _ _ hi hs => lock_moves hi (step_moves hs)) h (lock_start server)

/-! ## What the trace sees -/

def Event.sends (K : Request E → Bool) : Event E ρ → Bool
  | .sent _ request => K request
  | _ => false

def Event.succeeds (K : Request E → Bool) : Event E ρ → Bool
  | .answered _ request (.ok _) => K request
  | _ => false

def Event.records (K : Request E → Bool) : Event E ρ → Bool
  | .recorded _ request _ => K request
  | _ => false

def Event.silent : Event E ρ → Prop
  | .sent .. => False
  | .answered _ _ (.ok _) => False
  | .recorded .. => False
  | _ => True

theorem Event.silent_all {e : Event E ρ} (h : e.silent) (K : Request E → Bool) :
    e.sends K = false ∧ e.succeeds K = false ∧ e.records K = false := by
  cases e with
  | sent => cases h
  | landed => exact ⟨rfl, rfl, rfl⟩
  | answered t request outcome =>
    cases outcome with
    | error => exact ⟨rfl, rfl, rfl⟩
    | ok => cases h
  | recorded => cases h
  | returned => exact ⟨rfl, rfl, rfl⟩

inductive Effect (w : World δ E ρ) : World δ E ρ → Prop
  | quiet {t : Nat} {p : Pc E ρ} {w' : World δ E ρ} : w'.pc = Function.update w.pc t p → w'.state = w.state →
      (w'.trace = w.trace ∨ ∃ e : Event E ρ, e.silent ∧ w'.trace = w.trace ++ [e]) →
      (∀ call plan response, w.pc t = .answered call plan (.ok response) → call.unlocks = true) →
      (∀ call plan response, p ≠ .answered call plan (.ok response)) → Effect w w'
  | send {t : Nat} {call : Call E} {plan : Plan E} {w' : World δ E ρ} :
      (w.pc t = .planned call plan ∧ call.unlocks = false) ∨ w.pc t = .unlocked call plan →
      w'.pc = Function.update w.pc t (.inFlight call plan) → w'.state = w.state →
      w'.trace = w.trace ++ [.sent t plan.request] → Effect w w'
  | answer {t : Nat} {call : Call E} {plan : Plan E} {response : ρ} {w' : World δ E ρ} :
      w.pc t = .landed call plan response → w'.pc = Function.update w.pc t (.answered call plan (.ok response)) →
      w'.state = w.state → w'.trace = w.trace ++ [.answered t plan.request (.ok response)] → Effect w w'
  | record {t : Nat} {call : Call E} {plan : Plan E} {response : ρ} {w' : World δ E ρ} :
      w.pc t = .answered call plan (.ok response) → call.unlocks = false →
      w'.pc = Function.update w.pc t (.finished call (.ok response)) → w'.state = plan.next →
      w'.trace = w.trace ++ [.recorded t plan.request plan.next] → Effect w w'

theorem moves_effect {w w' : World δ E ρ} {m : Nat × Move E} (h : Moves interaction handle w m w') : Effect w w' := by
  cases h with
  | call hpc => exact .quiet rfl rfl (.inl rfl) (by rw [hpc]; simp) (by simp)
  | acquire hpc _ => exact .quiet rfl rfl (.inl rfl) (by rw [hpc]; simp) (by simp)
  | refuse hpc _ => exact .quiet rfl rfl (.inl rfl) (by rw [hpc]; simp) (by simp)
  | plan hpc _ => exact .quiet rfl rfl (.inl rfl) (by rw [hpc]; simp) (by simp)
  | unlock hpc _ => exact .quiet rfl rfl (.inl rfl) (by rw [hpc]; simp) (by simp)
  | send hpc => exact .send hpc rfl rfl rfl
  | land hpc _ => exact .quiet rfl rfl (.inr ⟨.landed _ _, trivial, rfl⟩) (by rw [hpc]; simp) (by simp)
  | answer hpc => exact .answer hpc rfl rfl rfl
  | fail hpc =>
    refine .quiet rfl rfl (.inr ⟨.answered _ _ (.error _), trivial, rfl⟩) ?_ (by simp)
    rcases hpc with hpc | ⟨response, hpc⟩ <;> (rw [hpc]; simp)
  | record hpc hu => exact .record hpc hu rfl rfl rfl
  | settle hpc hu =>
    refine .quiet rfl rfl (.inl rfl) (fun call plan response h => ?_) (by simp)
    rw [hpc] at h
    cases h
    exact hu response rfl
  | finish hpc => exact .quiet rfl rfl (.inr ⟨.returned _ _ _, trivial, rfl⟩) (by rw [hpc]; simp) (by simp)

/-! ## Success and its record -/

/-- A task has the success of a request of the kind `K` in hand. -/
def Answered (K : Request E → Bool) (w : World δ E ρ) : Prop :=
  ∃ t call plan response, w.pc t = .answered call plan (.ok response) ∧ K plan.request = true

/-- A success of the kind `K` is recorded, as `settled` says, or about to be. -/
def Settles (K : Request E → Bool) (settled : ResponseState → Prop) (w : World δ E ρ) : Prop :=
  ∀ e ∈ w.trace, e.succeeds K = true → settled w.state ∨ Answered K w

variable {K : Request E → Bool} {settled : ResponseState → Prop}

variable (interaction K settled) in
/-- Recording a plan of the kind `K` settles it, and no plan unsettles. -/
structure Settling : Prop where
  record : ∀ (call : Call E) (state : ResponseState) (plan : Plan E), Planned interaction call state plan →
    K plan.request = true → settled plan.next
  keep : ∀ (call : Call E) (state : ResponseState) (plan : Plan E), Planned interaction call state plan →
    settled state → settled plan.next
  held : ∀ (call : Call E) (state : ResponseState) (plan : Plan E), Planned interaction call state plan →
    K plan.request = true → call.unlocks = false

theorem answered_kept {w w' : World δ E ρ} {t : Nat} {p : Pc E ρ} (hpc : w'.pc = Function.update w.pc t p)
    (hnone : ∀ call plan response, w.pc t = .answered call plan (.ok response) → K plan.request = false)
    (h : Answered K w) : Answered K w' := by
  obtain ⟨u, call, plan, response, hu, hK⟩ := h
  have hut : u ≠ t := by
    intro heq
    subst heq
    rw [hnone call plan response hu] at hK
    cases hK
  exact ⟨u, call, plan, response, by rw [hpc, Function.update_of_ne hut]; exact hu, hK⟩

theorem Settles.append {w w' : World δ E ρ} {events : List (Event E ρ)} (hs : Settles K settled w)
    (htrace : w'.trace = w.trace ++ events)
    (hold : settled w.state ∨ Answered K w → settled w'.state ∨ Answered K w')
    (hnew : ∀ e ∈ events, e.succeeds K = true → settled w'.state ∨ Answered K w') : Settles K settled w' := by
  intro e he hsucc
  rw [htrace] at he
  rcases List.mem_append.mp he with he | he
  · exact hold (hs e he hsucc)
  · exact hnew e he hsucc

theorem settles_effect {w w' : World δ E ρ} (hk : Settling interaction K settled) (hl : LockInv interaction w)
    (hs : Settles K settled w) (h : Effect w w') : Settles K settled w' := by
  cases h with
  | @quiet t p _ hpc hstate htrace hno _ =>
    have hnone : ∀ call plan response, w.pc t = .answered call plan (.ok response) → K plan.request = false := by
      intro call plan response hu
      obtain ⟨state, hp, -, -⟩ := hl.fresh t call plan (by rw [hu]; rfl)
      by_contra hK
      have := hno call plan response hu
      rw [hk.held _ _ _ hp (by simpa using hK)] at this
      cases this
    have hold : settled w.state ∨ Answered K w → settled w'.state ∨ Answered K w' :=
      Or.imp (fun hset => hstate ▸ hset) (answered_kept hpc hnone)
    rcases htrace with ht | ⟨e, hsil, ht⟩
    · exact @Settles.append _ _ _ _ _ w w' [] hs (by rw [ht, List.append_nil]) hold (fun _ he => by cases he)
    · refine hs.append ht hold fun e' he hsucc => ?_
      rw [List.mem_singleton] at he
      subst he
      rw [(Event.silent_all hsil K).2.1] at hsucc
      cases hsucc
  | @send t call plan _ hpc hpc' hstate htrace =>
    have hnone : ∀ call plan response, w.pc t = .answered call plan (.ok response) → K plan.request = false := by
      intro call' plan' response hu
      rcases hpc with ⟨hpc, -⟩ | hpc <;> (rw [hpc] at hu; cases hu)
    refine hs.append htrace (Or.imp (fun hset => hstate ▸ hset) (answered_kept hpc' hnone)) fun e he hsucc => ?_
    rw [List.mem_singleton] at he
    subst he
    cases hsucc
  | @answer t call plan response _ hpc hpc' hstate htrace =>
    have hnone : ∀ call plan response, w.pc t = .answered call plan (.ok response) → K plan.request = false := by
      intro call' plan' response' hu
      rw [hpc] at hu
      cases hu
    refine hs.append htrace (Or.imp (fun hset => hstate ▸ hset) (answered_kept hpc' hnone)) fun e he hsucc => ?_
    rw [List.mem_singleton] at he
    subst he
    exact .inr ⟨t, call, plan, response, by rw [hpc', Function.update_self], hsucc⟩
  | @record t call plan response _ hpc hu hpc' hstate htrace =>
    obtain ⟨state, hp, hcur, -⟩ := hl.fresh t call plan (by rw [hpc]; rfl)
    have hcur : state = w.state := hcur (by rw [hpc]; simp [Pc.holds, hu])
    subst hcur
    refine hs.append htrace (fun h => ?_) fun e he hsucc => ?_
    · by_cases hK : K plan.request = true
      · exact .inl (hstate ▸ hk.record _ _ _ hp hK)
      · refine h.imp (fun hset => hstate ▸ hk.keep _ _ _ hp hset) (answered_kept hpc' ?_)
        intro call' plan' response' hu'
        rw [hpc] at hu'
        cases hu'
        simpa using hK
    · rw [List.mem_singleton] at he
      subst he
      cases hsucc

theorem settling_create : Settling interaction (Request.isCreate : Request E → Bool) (· ≠ .pending) := by
  refine ⟨fun _ _ _ h _ => h.next_ne_pending, fun _ _ _ h _ => h.next_ne_pending, fun call state plan h hK => ?_⟩
  cases hu : call.unlocks with
  | false => rfl
  | true =>
    obtain ⟨-, a, t, d, hr⟩ := h.unlocks hu
    rw [hr] at hK
    cases hK

theorem settling_delete : Settling interaction (Request.isDelete : Request E → Bool) (· = .deleted) := by
  refine ⟨fun _ _ _ h hK => ?_, fun _ _ _ h hd => ?_, fun call state plan h hK => ?_⟩
  · cases h with
    | delete => rfl
    | _ => cases hK
  · cases h with
    | initial => cases hd
    | deferral => cases hd
    | complete => cases hd
    | later => exact hd
    | edit _ _ hne => exact absurd hd hne
    | delete => rfl
    | followup => exact hd
  · cases h with
    | followup => cases hK
    | _ => rfl

/-- While a task has the lock and no success in hand, nobody has one. -/
theorem not_answered {w : World δ E ρ} (hk : Settling interaction K settled) (hl : LockInv interaction w) {t : Nat}
    (ht : (w.pc t).holds = true) (hno : ∀ call plan response, w.pc t ≠ .answered call plan (.ok response)) :
    ¬ Answered K w := by
  intro ⟨u, call, plan, response, hu, hK⟩
  obtain ⟨state, hp, -, -⟩ := hl.fresh u call plan (by rw [hu]; rfl)
  have hh : (w.pc u).holds = true := by rw [hu]; simp [Pc.holds, hk.held _ _ _ hp hK]
  have := hl.owned u hh
  rw [hl.owned t ht] at this
  cases this
  exact hno call plan response hu

/-- So it may count on the state: a success was recorded. -/
theorem settled_of_holds {w : World δ E ρ} (hk : Settling interaction K settled) (hl : LockInv interaction w)
    (hs : Settles K settled w) {t : Nat} (ht : (w.pc t).holds = true)
    (hno : ∀ call plan response, w.pc t ≠ .answered call plan (.ok response)) {e : Event E ρ} (he : e ∈ w.trace)
    (hsucc : e.succeeds K = true) : settled w.state := by
  rcases hs e he hsucc with h | h
  · exact h
  · exact absurd h (not_answered hk hl ht hno)

/-! ## The clauses -/

/-- What is to be sent: the sender's plan is current, or it is a followup's. -/
theorem send_planned {w : World δ E ρ} (hl : LockInv interaction w) {t : Nat} {call : Call E} {plan : Plan E}
    (hpc : (w.pc t = .planned call plan ∧ call.unlocks = false) ∨ w.pc t = .unlocked call plan) :
    ((w.pc t).holds = true ∧ w.pc t = .planned call plan ∧ Planned interaction call w.state plan) ∨
      (w.state ≠ .pending ∧ ∃ a t d, plan.request = .createFollowupMessage a t d) := by
  rcases hpc with ⟨hpc, -⟩ | hpc
  · obtain ⟨state, hp, hcur, -⟩ := hl.fresh t call plan (by rw [hpc]; rfl)
    have hh : (w.pc t).holds = true := by rw [hpc]; rfl
    rw [hcur hh] at hp
    exact .inl ⟨hh, hpc, hp⟩
  · obtain ⟨state, hp, -, hpend⟩ := hl.fresh t call plan (by rw [hpc]; rfl)
    obtain ⟨hne, hr⟩ := hp.unlocks (hl.released t call plan hpc)
    exact .inr ⟨hpend hne, hr⟩

theorem Planned.create_iff {call : Call E} {state : ResponseState} {plan : Plan E}
    (h : Planned interaction call state plan) : plan.request.isCreate = true ↔ state = .pending := by
  cases h with
  | initial => exact ⟨fun _ => rfl, fun _ => rfl⟩
  | deferral => exact ⟨fun _ => rfl, fun _ => rfl⟩
  | complete => exact ⟨fun h => (by cases h), fun h => (by cases h)⟩
  | later _ _ hs => exact ⟨fun h => (by cases h), fun h => (by rcases hs with rfl | rfl <;> cases h)⟩
  | edit _ hne => exact ⟨fun h => (by cases h), fun h => absurd h hne⟩
  | delete hne => exact ⟨fun h => (by cases h), fun h => absurd h hne⟩
  | followup _ _ hne => exact ⟨fun h => (by cases h), fun h => absurd h hne⟩

/-- An edit or a delete of the original is planned while it is there. -/
theorem Planned.original {call : Call E} {state : ResponseState} {plan : Plan E}
    (h : Planned interaction call state plan) (hr : (plan.request.isEdit || plan.request.isDelete) = true) :
    state ≠ .deleted := by
  cases h with
  | complete => intro h; cases h
  | edit _ _ hne => exact hne
  | delete _ hne => exact hne
  | _ => cases hr

/-- What is said of a trace and the state it led to. -/
structure Acknowledged (w : World δ E ρ) : Prop where
  /-- At most one create succeeds. -/
  once : NeverAfter (fun e => e.succeeds Request.isCreate) (fun e => e.succeeds Request.isCreate) w.trace
  /-- None is sent after one succeeded. -/
  last : NeverAfter (fun e => e.succeeds Request.isCreate) (fun e => e.sends Request.isCreate) w.trace
  /-- The state is `Pending` exactly as long as no create is recorded. -/
  pending : w.state = .pending ↔ ∀ e ∈ w.trace, e.records Request.isCreate = false
  /-- Every other request comes after a create that succeeded. -/
  first : Preceded (fun e => e.succeeds Request.isCreate) (fun e => e.sends fun r => !r.isCreate) w.trace
  /-- After a successful delete the original is neither edited nor deleted. -/
  gone : NeverAfter (fun e => e.succeeds Request.isDelete)
    (fun e => e.sends fun r => r.isEdit || r.isDelete) w.trace

structure TraceInv (w : World δ E ρ) : Prop extends Acknowledged w where
  told : ∀ t call plan response, w.pc t = .answered call plan (.ok response) →
    .answered t plan.request (.ok response) ∈ w.trace
  acked : w.state ≠ .pending → ∃ e ∈ w.trace, e.succeeds Request.isCreate = true
  created : Settles Request.isCreate (· ≠ .pending) w
  deleted : Settles Request.isDelete (· = .deleted) w

theorem trace_start (server : δ) : TraceInv (World.start server : World δ E ρ) where
  once := List.Pairwise.nil
  last := List.Pairwise.nil
  pending := ⟨fun _ e he => (by cases he), fun _ => rfl⟩
  first := Lib.preceded_nil _ _
  gone := List.Pairwise.nil
  told := fun t call plan response h => by cases h
  acked := fun h => absurd rfl h
  created := fun e he => by cases he
  deleted := fun e he => by cases he

theorem told_effect {w w' : World δ E ρ} {t : Nat} {p : Pc E ρ} {events : List (Event E ρ)}
    (ht : ∀ u call plan response, w.pc u = .answered call plan (.ok response) →
      .answered u plan.request (.ok response) ∈ w.trace)
    (hpc : w'.pc = Function.update w.pc t p) (htrace : w'.trace = w.trace ++ events)
    (hp : ∀ call plan response, p = .answered call plan (.ok response) →
      .answered t plan.request (.ok response) ∈ events) :
    ∀ u call plan response, w'.pc u = .answered call plan (.ok response) →
      .answered u plan.request (.ok response) ∈ w'.trace := by
  intro u call plan response hu
  rw [htrace]
  by_cases hut : u = t
  · subst hut
    rw [hpc, Function.update_self] at hu
    exact List.mem_append_right _ (hp call plan response hu)
  · rw [hpc, Function.update_of_ne hut] at hu
    exact List.mem_append_left _ (ht u call plan response hu)

theorem Acknowledged.silent {w w' : World δ E ρ} (h : Acknowledged w) (hstate : w'.state = w.state)
    (htrace : w'.trace = w.trace ∨ ∃ e : Event E ρ, e.silent ∧ w'.trace = w.trace ++ [e]) : Acknowledged w' := by
  rcases htrace with ht | ⟨e, hsil, ht⟩
  · exact ⟨ht ▸ h.once, ht ▸ h.last, by rw [ht, hstate]; exact h.pending, ht ▸ h.first, ht ▸ h.gone⟩
  · have hs := Event.silent_all hsil
    refine ⟨?_, ?_, ?_, ?_, ?_⟩
    · rw [ht]; exact Lib.neverAfter_concat h.once fun hq => by rw [(hs _).2.1] at hq; cases hq
    · rw [ht]; exact Lib.neverAfter_concat h.last fun hq => by rw [(hs _).1] at hq; cases hq
    · rw [ht, hstate, h.pending, List.forall_mem_append]
      simp [(hs _).2.2]
    · rw [ht]; exact Lib.preceded_concat h.first fun hq => by rw [(hs _).1] at hq; cases hq
    · rw [ht]; exact Lib.neverAfter_concat h.gone fun hq => by rw [(hs _).1] at hq; cases hq

theorem trace_effect {w w' : World δ E ρ} (hl : LockInv interaction w) (hi : TraceInv w) (h : Effect w w') :
    TraceInv w' := by
  have hc := settles_effect settling_create hl hi.created h
  have hd := settles_effect settling_delete hl hi.deleted h
  cases h with
  | @quiet t p _ hpc hstate htrace _ hno =>
    refine { hi.toAcknowledged.silent hstate htrace with told := ?_, acked := ?_, created := hc, deleted := hd }
    · rcases htrace with ht | ⟨e, -, ht⟩
      · have htrace : w'.trace = w.trace ++ [] := by rw [ht, List.append_nil]
        exact told_effect hi.told hpc htrace fun call plan response h => absurd h (hno call plan response)
      · exact told_effect hi.told hpc ht fun call plan response h => absurd h (hno call plan response)
    · intro hne
      obtain ⟨e, he, hs⟩ := hi.acked (hstate ▸ hne)
      rcases htrace with ht | ⟨e', -, ht⟩
      · exact ⟨e, ht ▸ he, hs⟩
      · exact ⟨e, ht ▸ List.mem_append_left _ he, hs⟩
  | @send t call plan _ hpc hpc' hstate htrace =>
    have hsend := send_planned hl hpc
    have hno : ∀ call plan response, w.pc t ≠ .answered call plan (.ok response) := by
      intro c p r
      rcases hpc with ⟨hpc, -⟩ | hpc <;> (rw [hpc]; simp)
    refine { once := ?_, last := ?_, pending := ?_, first := ?_, gone := ?_, told := ?_, acked := ?_,
             created := hc, deleted := hd }
    · rw [htrace]
      exact Lib.neverAfter_concat hi.once fun hq => by cases hq
    · rw [htrace]
      refine Lib.neverAfter_concat hi.last fun hq x hx hsucc => ?_
      rcases hsend with ⟨hh, -, hp⟩ | ⟨-, a, u, d, hr⟩
      · exact settled_of_holds settling_create hl hi.created hh hno hx hsucc (hp.create_iff.mp hq)
      · simp only [Event.sends, hr] at hq; cases hq
    · rw [htrace, hstate, hi.pending, List.forall_mem_append]
      simp [Event.records]
    · rw [htrace]
      refine Lib.preceded_concat hi.first fun hq => hi.acked ?_
      rcases hsend with ⟨-, -, hp⟩ | ⟨hne, -⟩
      · intro hpend
        simp only [Event.sends, hp.create_iff.mpr hpend] at hq
        cases hq
      · exact hne
    · rw [htrace]
      refine Lib.neverAfter_concat hi.gone fun hq x hx hsucc => ?_
      rcases hsend with ⟨hh, -, hp⟩ | ⟨-, a, u, d, hr⟩
      · exact hp.original hq (settled_of_holds settling_delete hl hi.deleted hh hno hx hsucc)
      · simp only [Event.sends, hr] at hq; cases hq
    · exact told_effect hi.told hpc' htrace fun c p r h => by cases h
    · intro hne
      obtain ⟨e, he, hs⟩ := hi.acked (hstate ▸ hne)
      exact ⟨e, htrace ▸ List.mem_append_left _ he, hs⟩
  | @answer t call plan response _ hpc hpc' hstate htrace =>
    refine { once := ?_, last := ?_, pending := ?_, first := ?_, gone := ?_, told := ?_, acked := ?_,
             created := hc, deleted := hd }
    · rw [htrace]
      refine Lib.neverAfter_concat hi.once fun hq x hx hsucc => ?_
      -- the answered create is held, and was planned in the current state, which is `Pending`
      obtain ⟨state, hp, hcur, -⟩ := hl.fresh t call plan (by rw [hpc]; rfl)
      have hh : (w.pc t).holds = true := by
        rw [hpc]; simp [Pc.holds, settling_create.held _ _ _ hp hq]
      have hset := settled_of_holds settling_create hl hi.created hh (by rw [hpc]; simp) hx hsucc
      rw [← hcur hh] at hset
      exact hset (hp.create_iff.mp hq)
    · rw [htrace]
      exact Lib.neverAfter_concat hi.last fun hq => by cases hq
    · rw [htrace, hstate, hi.pending, List.forall_mem_append]
      simp [Event.records]
    · rw [htrace]
      exact Lib.preceded_concat hi.first fun hq => by cases hq
    · rw [htrace]
      exact Lib.neverAfter_concat hi.gone fun hq => by cases hq
    · exact told_effect hi.told hpc' htrace fun c p r h => by cases h; simp
    · intro hne
      obtain ⟨e, he, hs⟩ := hi.acked (hstate ▸ hne)
      exact ⟨e, htrace ▸ List.mem_append_left _ he, hs⟩
  | @record t call plan response _ hpc hu hpc' hstate htrace =>
    obtain ⟨state, hp, hcur, -⟩ := hl.fresh t call plan (by rw [hpc]; rfl)
    have hcur : state = w.state := hcur (by rw [hpc]; simp [Pc.holds, hu])
    subst hcur
    refine { once := ?_, last := ?_, pending := ?_, first := ?_, gone := ?_, told := ?_, acked := ?_,
             created := hc, deleted := hd }
    · rw [htrace]
      exact Lib.neverAfter_concat hi.once fun hq => by cases hq
    · rw [htrace]
      exact Lib.neverAfter_concat hi.last fun hq => by cases hq
    · refine ⟨fun h => absurd (hstate ▸ h) hp.next_ne_pending, fun h => ?_⟩
      rw [htrace, List.forall_mem_append] at h
      have hpend := hi.pending.mpr h.1
      have := h.2 _ (List.mem_singleton_self _)
      rw [show Event.records Request.isCreate (.recorded t plan.request plan.next : Event E ρ) =
        plan.request.isCreate from rfl, hp.create_iff.mpr hpend] at this
      cases this
    · rw [htrace]
      exact Lib.preceded_concat hi.first fun hq => by cases hq
    · rw [htrace]
      exact Lib.neverAfter_concat hi.gone fun hq => by cases hq
    · exact told_effect hi.told hpc' htrace fun c p r h => by cases h
    · intro _
      by_cases hpend : w.state = .pending
      · exact ⟨.answered t plan.request (.ok response),
          htrace ▸ List.mem_append_left _ (hi.told t call plan response hpc), hp.create_iff.mpr hpend⟩
      · obtain ⟨e, he, hs⟩ := hi.acked hpend
        exact ⟨e, htrace ▸ List.mem_append_left _ he, hs⟩

theorem trace_inv {moves : List (Nat × Move E)} {server : δ} {w : World δ E ρ}
    (h : run (step interaction handle) (World.start server) moves = some w) : TraceInv w := by
  have hboth : LockInv interaction w ∧ TraceInv w :=
    run_invariant (I := fun w => LockInv interaction w ∧ TraceInv w)
      (fun _ _ _ hi hs => ⟨lock_moves hi.1 (step_moves hs), trace_effect hi.1 hi.2 (moves_effect (step_moves hs))⟩)
      h ⟨lock_start server, trace_start server⟩
  exact hboth.2

/-! ## The state only advances -/

def ResponseState.rank : ResponseState → Nat
  | pending => 0
  | deferred _ => 1
  | responded => 2
  | deleted => 3

/-- The state stays or moves on; a deferral keeps its visibility. -/
def Advances (a b : ResponseState) : Prop := a = b ∨ a.rank < b.rank

theorem Planned.advances {call : Call E} {state : ResponseState} {plan : Plan E}
    (h : Planned interaction call state plan) : Advances state plan.next := by
  cases h with
  | initial => exact .inr (show 0 < 2 by omega)
  | deferral => exact .inr (show 0 < 1 by omega)
  | complete => exact .inr (show 1 < 2 by omega)
  | later => exact .inl rfl
  | edit _ hp hd =>
    cases state with
    | pending => exact absurd rfl hp
    | deferred => exact .inr (show 1 < 2 by omega)
    | responded => exact .inl rfl
    | deleted => exact absurd rfl hd
  | delete hp hd =>
    cases state with
    | pending => exact absurd rfl hp
    | deferred => exact .inr (show 1 < 3 by omega)
    | responded => exact .inr (show 2 < 3 by omega)
    | deleted => exact absurd rfl hd
  | followup => exact .inl rfl

theorem advances_trans {a b c : ResponseState} (h : Advances a b) (h' : Advances b c) : Advances a c := by
  rcases h with rfl | h
  · exact h'
  · rcases h' with rfl | h'
    · exact .inr h
    · exact .inr (by omega)

theorem state_effect {w w' : World δ E ρ} (hl : LockInv interaction w) (h : Effect w w') :
    Advances w.state w'.state := by
  cases h with
  | quiet _ hstate => exact .inl hstate.symm
  | send _ _ hstate => exact .inl hstate.symm
  | answer _ _ hstate => exact .inl hstate.symm
  | @record t call plan response _ hpc hu _ hstate =>
    obtain ⟨state, hp, hcur, -⟩ := hl.fresh t call plan (by rw [hpc]; rfl)
    rw [hstate, ← hcur (by rw [hpc]; simp [Pc.holds, hu])]
    exact hp.advances

theorem run_advances {moves : List (Nat × Move E)} {w w' : World δ E ρ} (hl : LockInv interaction w)
    (h : run (step interaction handle) w moves = some w') : Advances w.state w'.state :=
  run_relates (I := LockInv interaction) (R := fun w w' => Advances w.state w'.state) (fun _ => .inl rfl)
    (fun _ _ _ h h' => advances_trans h h') (fun _ _ _ hi hs => lock_moves hi (step_moves hs))
    (fun _ _ _ hi hs => state_effect hi (moves_effect (step_moves hs))) h hl

def Pc.creating : Pc E ρ → Bool
  | .inFlight _ plan => plan.request.isCreate
  | .landed _ plan _ => plan.request.isCreate
  | _ => false

theorem creating_holds {w : World δ E ρ} (hl : LockInv interaction w) {t : Nat} (h : (w.pc t).creating = true) :
    w.owner = some t := by
  apply hl.owned t
  cases hpc : w.pc t with
  | inFlight call plan =>
    rw [hpc] at h
    obtain ⟨state, hp, -, -⟩ := hl.fresh t call plan (by rw [hpc]; rfl)
    simp [Pc.holds, settling_create.held _ _ _ hp h]
  | landed call plan response =>
    rw [hpc] at h
    obtain ⟨state, hp, -, -⟩ := hl.fresh t call plan (by rw [hpc]; rfl)
    simp [Pc.holds, settling_create.held _ _ _ hp h]
  | _ => rw [hpc] at h; cases h

/-- Every run of any number of clones keeps to one acknowledgement: `Acknowledged` of its
    trace, one create under way at a time, and a state that only advances. A step that
    changes the state records a request answered with success. -/
theorem acknowledgement_safety {moves moves' : List (Nat × Move E)} {server : δ} {w w' : World δ E ρ}
    (h : run (step interaction handle) (World.start server) moves = some w)
    (h' : run (step interaction handle) w moves' = some w') :
    Acknowledged w ∧
      (∀ t u, (w.pc t).creating = true → (w.pc u).creating = true → t = u) ∧
      (w.state ≠ .pending → w'.state ≠ .pending) ∧
      (w.state ≠ .pending → ∀ ephemeral, w'.state = .deferred ephemeral → w.state = .deferred ephemeral) ∧
      (∀ m next, step interaction handle w m = some next → next.state ≠ w.state →
        ∃ t call plan response, w.pc t = .answered call plan (.ok response) ∧ next.state = plan.next) := by
  have hl := lock_inv h
  have hadv := run_advances hl h'
  refine ⟨(trace_inv h).toAcknowledged, ?_, ?_, ?_, ?_⟩
  · intro t u ht hu
    have := creating_holds hl ht
    rw [creating_holds hl hu] at this
    exact (Option.some.inj this).symm
  · intro hne hpend
    rcases hadv with heq | hlt
    · exact hne (heq.trans hpend)
    · rw [hpend] at hlt
      exact absurd hlt (Nat.not_lt_zero _)
  · intro hne ephemeral hdef
    rcases hadv with heq | hlt
    · exact heq.trans hdef
    · rw [hdef] at hlt
      cases hs : w.state with
      | pending => exact absurd hs hne
      | deferred _ => rw [hs] at hlt; exact absurd hlt (by simp [ResponseState.rank])
      | responded => rw [hs] at hlt; exact absurd hlt (by simp [ResponseState.rank])
      | deleted => rw [hs] at hlt; exact absurd hlt (by simp [ResponseState.rank])
  · intro m next hstep hne
    cases moves_effect (step_moves hstep) with
    | quiet _ hstate => exact absurd hstate hne
    | send _ _ hstate => exact absurd hstate hne
    | answer _ _ hstate => exact absurd hstate hne
    | @record t call plan response _ hpc _ _ hstate => exact ⟨t, call, plan, response, hpc, hstate⟩

/-- Two clones: one defers, then the other completes the deferral. -/
theorem acknowledgement_safety_deferral :
    let interaction : Interaction := ⟨1, 2, .applicationCommand, "token", none, none, none, none, .ok none⟩
    let discord : Unit → Request Unit → Option (Unit × Unit) := fun _ _ => some ((), ())
    let moves : List (Nat × Move Unit) := [(0, .call (.defer true)), (1, .call (.reply (.content "done") true)),
      (0, .acquire), (0, .decide), (0, .send), (0, .land), (0, .answer), (0, .update), (0, .finish), (1, .acquire)]
    let moves' : List (Nat × Move Unit) := [(1, .decide), (1, .send), (1, .land), (1, .answer), (1, .update)]
    ∃ w w', run (step interaction discord) (World.start ()) moves = some w ∧
      run (step interaction discord) w moves' = some w' ∧ w'.state = .responded ∧ Acknowledged w := by
  intro interaction discord moves moves'
  refine ⟨_, _, rfl, rfl, rfl, ?_⟩
  exact (@acknowledgement_safety Unit Unit Unit interaction discord moves moves' () _ _ rfl rfl).1

end GloamCommands.Response
