/-
  GloamCommands.Response.Failures — calls that fail or are dropped leave no mark
  (crates/gloam-commands/src/response.rs).

  The machine of `Response.Machine`, in which a caller may also drop the future of a call
  while it waits: for the lock, or for its request. The guard is dropped with it. A
  request that was in flight is abandoned and may still land.

  `Log` is the history: an entry for each call that got the lock, in that order, with what
  it decided and how it ended, and the requests sent, each under its entry.
  - `Kept`: the state is what the successful calls alone lead to, and every decision is
    the one made from what the successful calls before it lead to.
  - `replay_run`: the successful calls alone are a run of the machine.
  - `failed_calls_invisible`: the history without the rest.
-/

import GloamCommands.Response.Acknowledge
import Mathlib.Data.List.Induction

namespace GloamCommands.Response

open Lib (run run_append run_invariant)

variable {δ E ρ : Type}

/-! ## The history -/

inductive End where
  | ok
  | error (error : Error)
  | dropped
  deriving DecidableEq, Repr

structure Entry (E : Type) where
  task : Nat
  call : Call E
  decision : Option (Except Error (Plan E))
  ending : Option End

structure Log (E : Type) where
  entries : List (Entry E)
  /-- The entry of each task's newest call. -/
  current : Nat → Nat
  /-- The requests sent, under the entries of their calls. -/
  sent : List (Nat × Request E)

def Log.put (log : Log E) (t : Nat) (entry : Entry E) : Log E :=
  { log with entries := log.entries.set (log.current t) entry }

def endOf : Except Error ρ → End
  | .ok _ => .ok
  | .error error => .error error

variable (interaction : Interaction) (handle : δ → Request E → Option (δ × ρ))

def Log.note (log : Log E) (w : World δ E ρ) (t : Nat) (move : Move E) : Log E :=
  match move, w.pc t with
  | .acquire, .waiting call =>
    { log with
      entries := log.entries ++ [⟨t, call, none, none⟩]
      current := Function.update log.current t log.entries.length }
  | .decide, .holding call =>
    match call.decide interaction w.state with
    | .error error => log.put t ⟨t, call, some (.error error), some (.error error)⟩
    | .ok plan => log.put t ⟨t, call, some (.ok plan), none⟩
  | .send, .planned _ plan => { log with sent := log.sent ++ [(log.current t, plan.request)] }
  | .send, .unlocked _ plan => { log with sent := log.sent ++ [(log.current t, plan.request)] }
  | .update, .answered call plan outcome => log.put t ⟨t, call, some (.ok plan), some (endOf outcome)⟩
  | _, _ => log

/-! ## The machine with drops -/

structure Tracked (δ E ρ : Type) where
  world : World δ E ρ
  log : Log E
  /-- The requests in flight whose calls were dropped. -/
  abandoned : List (Request E)

inductive Act (E : Type) where
  | move (move : Move E)
  | drop
  | landAbandoned (index : Nat)

def Tracked.start (server : δ) : Tracked δ E ρ := ⟨World.start server, ⟨[], fun _ => 0, []⟩, []⟩

def Pc.entry (t : Nat) : Pc E ρ → Option (Entry E)
  | .holding call => some ⟨t, call, none, none⟩
  | .planned call plan => some ⟨t, call, some (.ok plan), none⟩
  | .unlocked call plan => some ⟨t, call, some (.ok plan), none⟩
  | .inFlight call plan => some ⟨t, call, some (.ok plan), none⟩
  | .landed call plan _ => some ⟨t, call, some (.ok plan), none⟩
  | .answered call plan _ => some ⟨t, call, some (.ok plan), none⟩
  | _ => none

def Pc.awaits : Pc E ρ → Bool
  | .idle => false
  | .answered _ _ _ => false
  | .finished _ _ => false
  | _ => true

/-- What dropping the call leaves in flight. -/
def Pc.flying : Pc E ρ → List (Request E)
  | .inFlight _ plan => [plan.request]
  | _ => []

def World.release (w : World δ E ρ) (t : Nat) : World δ E ρ :=
  { w.goto t .idle with owner := if w.owner = some t then none else w.owner }

def Log.dropped (log : Log E) (t : Nat) (entry : Option (Entry E)) : Log E :=
  match entry with
  | none => log
  | some entry => log.put t { entry with ending := some .dropped }

def stepDropping (w : Tracked δ E ρ) (m : Nat × Act E) : Option (Tracked δ E ρ) :=
  match m.2 with
  | .move move =>
    match step interaction handle w.world (m.1, move) with
    | none => none
    | some world => some { w with world := world, log := w.log.note interaction w.world m.1 move }
  | .drop =>
    if (w.world.pc m.1).awaits then
      some ⟨w.world.release m.1, w.log.dropped m.1 ((w.world.pc m.1).entry m.1), w.abandoned ++ (w.world.pc m.1).flying⟩
    else none
  | .landAbandoned index =>
    match w.abandoned[index]? with
    | none => none
    | some request =>
      match handle w.world.server request with
      | none => none
      | some (server, _) =>
        some { w with world := { w.world with server := server }, abandoned := w.abandoned.eraseIdx index }

/-! ## Replaying successful calls -/

/-- What a successful call makes of the state it reads. -/
def Call.effect (call : Call E) (state : ResponseState) : ResponseState :=
  if call.unlocks then state
  else
    match call.decide interaction state with
    | .ok plan => plan.next
    | .error _ => state

def replay (calls : List (Call E)) : ResponseState := calls.foldl (fun state call => call.effect interaction state) .pending

def Entry.succeeded (entry : Entry E) : Bool := entry.ending == some .ok

def kept (entries : List (Entry E)) : List (Call E) := (entries.filter Entry.succeeded).map (·.call)

def Entry.apply (entry : Entry E) (state : ResponseState) : ResponseState :=
  if entry.succeeded then entry.call.effect interaction state else state

def stateAfter (state : ResponseState) (entries : List (Entry E)) : ResponseState :=
  entries.foldl (fun state entry => entry.apply interaction state) state

variable {interaction handle}

theorem stateAfter_filter (state : ResponseState) (entries : List (Entry E)) :
    stateAfter interaction state entries = (kept entries).foldl (fun state call => call.effect interaction state) state := by
  induction entries generalizing state with
  | nil => rfl
  | cons entry rest ih =>
    unfold stateAfter kept at ih ⊢
    rw [List.foldl_cons, ih, List.filter_cons]
    by_cases h : entry.succeeded = true
    · rw [if_pos h, List.map_cons, List.foldl_cons, Entry.apply, if_pos h]
    · rw [if_neg h, Entry.apply, if_neg h]

theorem replay_kept (entries : List (Entry E)) :
    replay interaction (kept entries) = stateAfter interaction .pending entries :=
  (stateAfter_filter .pending entries).symm

theorem stateAfter_concat (state : ResponseState) (entries : List (Entry E)) (entry : Entry E) :
    stateAfter interaction state (entries ++ [entry]) = entry.apply interaction (stateAfter interaction state entries) := by
  unfold stateAfter
  rw [List.foldl_append]
  rfl

theorem apply_of_not_ok {entry : Entry E} (h : entry.ending ≠ some .ok) (state : ResponseState) :
    entry.apply interaction state = state := by
  unfold Entry.apply Entry.succeeded
  rw [if_neg (by simpa using h)]

theorem stateAfter_append (entries more : List (Entry E)) (h : ∀ entry ∈ more, entry.ending ≠ some .ok) :
    stateAfter interaction .pending (entries ++ more) = stateAfter interaction .pending entries := by
  induction more using List.reverseRecOn with
  | nil => rw [List.append_nil]
  | append_singleton more entry ih =>
    rw [← List.append_assoc, stateAfter_concat, apply_of_not_ok (h entry (by simp))]
    exact ih fun e he => h e (by simp [he])

theorem stateAfter_set (entries : List (Entry E)) (i : Nat) (new : Entry E) (state : ResponseState)
    (h : ∀ old, entries[i]? = some old → ∀ s, new.apply interaction s = old.apply interaction s) :
    stateAfter interaction state (entries.set i new) = stateAfter interaction state entries := by
  induction entries generalizing i state with
  | nil => rfl
  | cons entry rest ih =>
    cases i with
    | zero =>
      show stateAfter interaction (new.apply interaction state) rest = stateAfter interaction (entry.apply interaction state) rest
      rw [h entry rfl]
    | succ i => exact ih i (entry.apply interaction state) h

/-- A call that gives the lock back before its request makes nothing of the state at all. -/
theorem apply_of_unlocks {entry : Entry E} (h : entry.call.unlocks = true) (state : ResponseState) :
    entry.apply interaction state = state := by
  unfold Entry.apply Call.effect
  rw [if_pos h, ite_self]

/-- The last entry, as long as its call runs, has made nothing of the state. -/
theorem stateAfter_last {entries : List (Entry E)} {i : Nat} {old : Entry E} (hat : entries[i]? = some old)
    (hold : old.ending = none) (hlast : i + 1 = entries.length) :
    stateAfter interaction .pending entries = stateAfter interaction .pending (entries.take i) := by
  obtain ⟨hlt, hget⟩ := List.getElem?_eq_some_iff.mp hat
  have hdrop : entries.drop i = [old] := by
    rw [List.drop_eq_getElem_cons hlt, hget, List.drop_eq_nil_of_le (by omega)]
  conv_lhs => rw [← List.take_append_drop i entries, hdrop, stateAfter_concat, apply_of_not_ok (by rw [hold]; simp)]

/-- Replacing an entry that has made nothing of the state: what follows is as it was, if the
    new one makes nothing of it either or is the last. -/
theorem stateAfter_put {entries : List (Entry E)} {i : Nat} {old new : Entry E} (hat : entries[i]? = some old)
    (hold : old.ending = none) (hquiet : (∀ s, new.apply interaction s = s) ∨ i + 1 = entries.length) :
    stateAfter interaction .pending (entries.set i new) = new.apply interaction (stateAfter interaction .pending entries) ∧
      ∀ j < entries.length, stateAfter interaction .pending ((entries.set i new).take j) =
        stateAfter interaction .pending (entries.take j) := by
  have hid : ∀ s, old.apply interaction s = s := apply_of_not_ok (by rw [hold]; simp)
  have hlt := (List.getElem?_eq_some_iff.mp hat).1
  rcases hquiet with hnew | hlast
  · refine ⟨?_, fun j _ => ?_⟩
    · rw [hnew]
      refine stateAfter_set _ _ new .pending fun other hother s => ?_
      rw [hat] at hother
      cases hother
      rw [hnew, hid]
    · rw [List.take_set]
      refine stateAfter_set _ _ new .pending fun other hother s => ?_
      rw [List.getElem?_take] at hother
      split at hother
      · rw [hat] at hother
        cases hother
        rw [hnew, hid]
      · cases hother
  · refine ⟨?_, fun j hj => ?_⟩
    · rw [List.set_eq_take_append_cons_drop, if_pos hlt, List.drop_eq_nil_of_le (by omega), stateAfter_concat,
        stateAfter_last hat hold hlast]
    · rw [List.take_set, List.set_eq_of_length_le (by rw [List.length_take]; omega)]

/-! ## What the history keeps -/

def Event.request : Event E ρ → Option (Request E)
  | .sent _ request => some request
  | _ => none

theorem entry_running {t : Nat} {pc : Pc E ρ} {entry : Entry E} (h : pc.entry t = some entry) :
    entry.task = t ∧ entry.ending = none := by
  cases pc with
  | idle => cases h
  | waiting => cases h
  | finished => cases h
  | holding => cases h; exact ⟨rfl, rfl⟩
  | planned => cases h; exact ⟨rfl, rfl⟩
  | unlocked => cases h; exact ⟨rfl, rfl⟩
  | inFlight => cases h; exact ⟨rfl, rfl⟩
  | landed => cases h; exact ⟨rfl, rfl⟩
  | answered => cases h; exact ⟨rfl, rfl⟩

variable (interaction) in
structure Kept (w : Tracked δ E ρ) : Prop where
  lock : LockInv interaction w.world
  state : w.world.state = stateAfter interaction .pending w.log.entries
  decided : ∀ {i : Nat} {entry : Entry E} {decision : Except Error (Plan E)}, w.log.entries[i]? = some entry →
    entry.decision = some decision →
    decision = entry.call.decide interaction (stateAfter interaction .pending (w.log.entries.take i))
  succeeded : ∀ {i : Nat} {entry : Entry E}, w.log.entries[i]? = some entry → entry.ending = some .ok →
    ∃ plan, entry.decision = some (.ok plan)
  running : ∀ {t : Nat} {entry : Entry E}, (w.world.pc t).entry t = some entry →
    w.log.entries[w.log.current t]? = some entry
  /-- Whoever has the lock got it last. -/
  last : ∀ {t : Nat}, (w.world.pc t).holds = true → w.log.current t + 1 = w.log.entries.length
  sent : ∀ {i : Nat} {request : Request E}, (i, request) ∈ w.log.sent → ∃ entry plan,
    w.log.entries[i]? = some entry ∧ entry.decision = some (.ok plan) ∧ request = plan.request
  traced : w.world.trace.filterMap Event.request = w.log.sent.map (·.2)

theorem kept_start (server : δ) : Kept interaction (Tracked.start server : Tracked δ E ρ) := by
  refine ⟨lock_start server, rfl, ?_, ?_, ?_, ?_, ?_, rfl⟩
  · intro i entry decision h
    cases h
  · intro i entry h
    cases h
  · intro t entry h
    cases h
  · intro t h
    cases h
  · intro i request h
    cases h

section

variable {w w' : Tracked δ E ρ} {t : Nat} {p : Pc E ρ}

theorem Kept.carry (hi : Kept interaction w) (hlock : LockInv interaction w'.world)
    (hpc : w'.world.pc = Function.update w.world.pc t p) (hstate : w'.world.state = w.world.state)
    (hentries : w'.log.entries = w.log.entries) (hcurrent : w'.log.current = w.log.current)
    (hp : ∀ entry, p.entry t = some entry → (w.world.pc t).entry t = some entry)
    (hholds : p.holds = true → (w.world.pc t).holds = true)
    (hsent : ∀ x ∈ w'.log.sent, x ∈ w.log.sent ∨ ∃ call plan,
      (w.world.pc t).entry t = some ⟨t, call, some (.ok plan), none⟩ ∧ x = (w.log.current t, plan.request))
    (htraced : w'.world.trace.filterMap Event.request = w'.log.sent.map (·.2)) : Kept interaction w' := by
  refine ⟨hlock, ?_, ?_, ?_, ?_, ?_, ?_, htraced⟩
  · rw [hstate, hentries]
    exact hi.state
  · intro i entry decision he hd
    rw [hentries] at he ⊢
    exact hi.decided he hd
  · intro i entry he hok
    rw [hentries] at he
    exact hi.succeeded he hok
  · intro u entry hu
    rw [hentries, hcurrent]
    rw [hpc] at hu
    by_cases h : u = t
    · subst h
      rw [Function.update_self] at hu
      exact hi.running (hp entry hu)
    · rw [Function.update_of_ne h] at hu
      exact hi.running hu
  · intro u hu
    rw [hentries, hcurrent]
    rw [hpc] at hu
    by_cases h : u = t
    · subst h
      rw [Function.update_self] at hu
      exact hi.last (hholds hu)
    · rw [Function.update_of_ne h] at hu
      exact hi.last hu
  · intro i request hx
    rw [hentries]
    rcases hsent _ hx with hx | ⟨call, plan, hentry, heq⟩
    · exact hi.sent hx
    · obtain ⟨rfl, rfl⟩ := Prod.mk.inj heq
      exact ⟨_, plan, hi.running hentry, rfl, rfl⟩

/-- Task `t`'s entry changes. Unless it still has the lock, and so is the last, the change
    makes nothing of the state. -/
theorem Kept.put {old new : Entry E} (hi : Kept interaction w) (hlock : LockInv interaction w'.world)
    (hpc : w'.world.pc = Function.update w.world.pc t p) (hlog : w'.log = w.log.put t new)
    (hold : (w.world.pc t).entry t = some old) (hp : ∀ entry, p.entry t = some entry → entry = new)
    (hholds : p.holds = true → (w.world.pc t).holds = true)
    (hstate : w'.world.state = new.apply interaction w.world.state)
    (hquiet : (∀ s, new.apply interaction s = s) ∨ (w.world.pc t).holds = true)
    (hdecided : ∀ decision, new.decision = some decision →
      decision = new.call.decide interaction (stateAfter interaction .pending (w.log.entries.take (w.log.current t))))
    (hsucceeded : new.ending = some .ok → ∃ plan, new.decision = some (.ok plan))
    (hplan : ∀ plan, old.decision = some (.ok plan) → new.decision = some (.ok plan))
    (htraced : w'.world.trace.filterMap Event.request = w.world.trace.filterMap Event.request) :
    Kept interaction w' := by
  have hat := hi.running hold
  obtain ⟨htask, hending⟩ := entry_running hold
  have hlt : w.log.current t < w.log.entries.length := (List.getElem?_eq_some_iff.mp hat).1
  obtain ⟨hafter, hbefore⟩ := stateAfter_put hat hending (hquiet.imp_right hi.last)
  refine ⟨hlock, ?_, ?_, ?_, ?_, ?_, ?_, ?_⟩
  · rw [hstate, hlog, hi.state]
    exact hafter.symm
  · intro i entry decision he hd
    rw [hlog] at he ⊢
    change (w.log.entries.set (w.log.current t) new)[i]? = some entry at he
    show decision = entry.call.decide interaction
      (stateAfter interaction .pending ((w.log.entries.set (w.log.current t) new).take i))
    have hi' : i < w.log.entries.length := by
      have := (List.getElem?_eq_some_iff.mp he).1
      rwa [List.length_set] at this
    rw [hbefore i hi']
    by_cases hit : i = w.log.current t
    · subst hit
      rw [List.getElem?_set_self hlt] at he
      cases he
      exact hdecided decision hd
    · rw [List.getElem?_set_ne (Ne.symm hit)] at he
      exact hi.decided he hd
  · intro i entry he hok
    rw [hlog] at he
    change (w.log.entries.set (w.log.current t) new)[i]? = some entry at he
    by_cases hit : i = w.log.current t
    · subst hit
      rw [List.getElem?_set_self hlt] at he
      cases he
      exact hsucceeded hok
    · rw [List.getElem?_set_ne (Ne.symm hit)] at he
      exact hi.succeeded he hok
  · intro u entry hu
    rw [hlog]
    show (w.log.entries.set (w.log.current t) new)[w.log.current u]? = some entry
    rw [hpc] at hu
    by_cases h : u = t
    · subst h
      rw [Function.update_self] at hu
      rw [List.getElem?_set_self hlt, hp entry hu]
    · rw [Function.update_of_ne h] at hu
      have hother := hi.running hu
      have hne : w.log.current t ≠ w.log.current u := by
        intro heq
        rw [← heq, hat] at hother
        cases hother
        exact h ((entry_running hu).1.symm.trans htask)
      rw [List.getElem?_set_ne hne]
      exact hother
  · intro u hu
    rw [hlog]
    show w.log.current u + 1 = (w.log.entries.set (w.log.current t) new).length
    rw [List.length_set]
    rw [hpc] at hu
    by_cases h : u = t
    · subst h
      rw [Function.update_self] at hu
      exact hi.last (hholds hu)
    · rw [Function.update_of_ne h] at hu
      exact hi.last hu
  · intro i request hx
    rw [hlog] at hx ⊢
    obtain ⟨entry, plan, he, hd, hr⟩ := hi.sent hx
    show ∃ entry plan, (w.log.entries.set (w.log.current t) new)[i]? = some entry ∧ _
    by_cases hit : i = w.log.current t
    · subst hit
      rw [hat] at he
      cases he
      exact ⟨new, plan, List.getElem?_set_self hlt, hplan plan hd, hr⟩
    · exact ⟨entry, plan, by rw [List.getElem?_set_ne (Ne.symm hit)]; exact he, hd, hr⟩
  · rw [htraced, hlog]
    exact hi.traced

theorem Kept.acquire {call : Call E} (hi : Kept interaction w) (hpc : w.world.pc t = .waiting call)
    (ho : w.world.owner = none) (hlock : LockInv interaction w'.world)
    (hworld : w'.world = { w.world.goto t (.holding call) with owner := some t })
    (hlog : w'.log = { w.log with
      entries := w.log.entries ++ [⟨t, call, none, none⟩]
      current := Function.update w.log.current t w.log.entries.length }) : Kept interaction w' := by
  have hold : ∀ {i : Nat} {entry : Entry E}, w.log.entries[i]? = some entry →
      (w.log.entries ++ [⟨t, call, none, none⟩])[i]? = some entry := by
    intro i entry he
    rw [List.getElem?_append_left (List.getElem?_eq_some_iff.mp he).1]
    exact he
  have hnew : ∀ {i : Nat} {entry : Entry E}, ¬ i < w.log.entries.length →
      (w.log.entries ++ [⟨t, call, none, none⟩])[i]? = some entry → entry = ⟨t, call, none, none⟩ := by
    intro i entry hi he
    rw [List.getElem?_append_right (by omega)] at he
    obtain ⟨_, hentry⟩ := List.getElem?_eq_some_iff.mp he
    rw [List.getElem_singleton] at hentry
    exact hentry.symm
  refine ⟨hlock, ?_, ?_, ?_, ?_, ?_, ?_, ?_⟩
  · rw [hworld, hlog, stateAfter_concat, apply_of_not_ok (by simp)]
    exact hi.state
  · intro i entry decision he hd
    rw [hlog] at he ⊢
    by_cases hit : i < w.log.entries.length
    · rw [List.getElem?_append_left hit] at he
      rw [List.take_append_of_le_length (by omega)]
      exact hi.decided he hd
    · cases hnew hit he
      cases hd
  · intro i entry he hok
    rw [hlog] at he
    by_cases hit : i < w.log.entries.length
    · rw [List.getElem?_append_left hit] at he
      exact hi.succeeded he hok
    · cases hnew hit he
      cases hok
  · intro u entry hu
    rw [hlog]
    rw [hworld] at hu
    change (Function.update w.world.pc t (.holding call) u).entry u = some entry at hu
    show (w.log.entries ++ [(⟨t, call, none, none⟩ : Entry E)])[Function.update w.log.current t w.log.entries.length u]? =
      some entry
    by_cases h : u = t
    · subst h
      rw [Function.update_self] at hu ⊢
      cases hu
      rw [List.getElem?_append_right (Nat.le_refl _), Nat.sub_self]
      rfl
    · rw [Function.update_of_ne h] at hu ⊢
      exact hold (hi.running hu)
  · intro u hu
    rw [hlog]
    rw [hworld] at hu
    change (Function.update w.world.pc t (.holding call) u).holds = true at hu
    show Function.update w.log.current t w.log.entries.length u + 1 =
      (w.log.entries ++ [(⟨t, call, none, none⟩ : Entry E)]).length
    by_cases h : u = t
    · subst h
      rw [Function.update_self, List.length_append]
      rfl
    · -- nobody had the lock
      rw [Function.update_of_ne h] at hu
      have := hi.lock.owned u hu
      rw [ho] at this
      cases this
  · intro i request hx
    rw [hlog] at hx ⊢
    obtain ⟨entry, plan, he, hd, hr⟩ := hi.sent hx
    exact ⟨entry, plan, hold he, hd, hr⟩
  · rw [hworld, hlog]
    exact hi.traced

end

/-- Who has the lock reads what the successful calls before it lead to. -/
theorem Kept.state_before {w : Tracked δ E ρ} {t : Nat} {entry : Entry E} (hi : Kept interaction w)
    (hentry : (w.world.pc t).entry t = some entry) (hh : (w.world.pc t).holds = true) :
    w.world.state = stateAfter interaction .pending (w.log.entries.take (w.log.current t)) := by
  rw [hi.state]
  exact stateAfter_last (hi.running hentry) (entry_running hentry).2 (hi.last hh)

theorem kept_move {w : Tracked δ E ρ} {world : World δ E ρ} {m : Nat × Move E} (hi : Kept interaction w)
    (h : Moves interaction handle w.world m world) :
    Kept interaction { w with world := world, log := w.log.note interaction w.world m.1 m.2 } := by
  have hlock := lock_moves hi.lock h
  have hkeeps : ∀ e : Event E ρ, e.request = none →
      (w.world.trace ++ [e]).filterMap Event.request = w.log.sent.map (·.2) := by
    intro e he
    rw [List.filterMap_append, List.filterMap_cons_none he, List.filterMap_nil, List.append_nil]
    exact hi.traced
  cases h with
  | @call t call hpc =>
    exact hi.carry hlock rfl rfl rfl rfl (fun _ he => by cases he) (fun hh => by cases hh) (fun _ hx => .inl hx) hi.traced
  | @acquire t call hpc ho =>
    exact hi.acquire hpc ho hlock rfl (by simp only [Log.note, hpc])
  | @refuse t call error hpc hd =>
    have hh : (w.world.pc t).holds = true := by rw [hpc]; rfl
    have hold : (w.world.pc t).entry t = some ⟨t, call, none, none⟩ := by rw [hpc]; rfl
    refine hi.put hlock rfl (show w.log.note interaction w.world t .decide =
        w.log.put t ⟨t, call, some (.error error), some (.error error)⟩ by simp only [Log.note, hpc, hd])
      hold (fun _ he => by cases he) (fun hh => by cases hh) ?_ (.inr hh) ?_ (fun hok => by cases hok)
      (fun _ hp => by cases hp) rfl
    · exact (apply_of_not_ok (by simp) _).symm
    · intro decision hdecision
      cases hdecision
      rw [← hi.state_before hold hh]
      exact hd.symm
  | @plan t call plan hpc hd =>
    have hh : (w.world.pc t).holds = true := by rw [hpc]; rfl
    have hold : (w.world.pc t).entry t = some ⟨t, call, none, none⟩ := by rw [hpc]; rfl
    refine hi.put hlock rfl (show w.log.note interaction w.world t .decide = w.log.put t ⟨t, call, some (.ok plan), none⟩ by
        simp only [Log.note, hpc, hd])
      hold (fun _ he => by cases he; rfl) (fun _ => hh) ?_ (.inr hh) ?_ (fun hok => by cases hok)
      (fun _ hp => by cases hp) rfl
    · exact (apply_of_not_ok (by simp) _).symm
    · intro decision hdecision
      cases hdecision
      rw [← hi.state_before hold hh]
      exact hd.symm
  | @unlock t call plan hpc hu =>
    exact hi.carry hlock rfl rfl rfl rfl (fun _ he => by rw [hpc]; exact he) (fun hh => by cases hh)
      (fun _ hx => .inl hx) hi.traced
  | @send t call plan hpc =>
    have hlog : w.log.note interaction w.world t .send =
        { w.log with sent := w.log.sent ++ [(w.log.current t, plan.request)] } := by
      rcases hpc with ⟨hpc, -⟩ | hpc <;> simp only [Log.note, hpc]
    have hentry : (w.world.pc t).entry t = some ⟨t, call, some (.ok plan), none⟩ := by
      rcases hpc with ⟨hpc, -⟩ | hpc <;> (rw [hpc]; rfl)
    dsimp only
    rw [hlog]
    refine hi.carry hlock rfl rfl rfl rfl (fun _ he => by cases he; exact hentry) ?_ (fun x hx => ?_) ?_
    · intro hh
      rcases hpc with ⟨hpc, -⟩ | hpc
      · rw [hpc]; rfl
      · have hu := hi.lock.released t call plan hpc
        simp [Pc.holds, hu] at hh
    · rcases List.mem_append.mp hx with hx | hx
      · exact .inl hx
      · exact .inr ⟨call, plan, hentry, List.mem_singleton.mp hx⟩
    · show (w.world.trace ++ [Event.sent t plan.request]).filterMap Event.request = _
      rw [List.filterMap_append, hi.traced, List.map_append]
      rfl
  | @land t call plan server response hpc _ =>
    exact hi.carry hlock rfl rfl rfl rfl (fun _ he => by rw [hpc]; exact he) (fun hh => by rw [hpc]; exact hh)
      (fun _ hx => .inl hx) (hkeeps _ rfl)
  | @answer t call plan response hpc =>
    exact hi.carry hlock rfl rfl rfl rfl (fun _ he => by rw [hpc]; exact he) (fun hh => by rw [hpc]; exact hh)
      (fun _ hx => .inl hx) (hkeeps _ rfl)
  | @fail t call plan error hpc =>
    refine hi.carry hlock rfl rfl rfl rfl (fun _ he => ?_) (fun hh => ?_) (fun _ hx => .inl hx) (hkeeps _ rfl)
    · rcases hpc with hpc | ⟨response, hpc⟩ <;> (rw [hpc]; exact he)
    · rcases hpc with hpc | ⟨response, hpc⟩ <;> (rw [hpc]; exact hh)
  | @record t call plan response hpc hu =>
    have hh : (w.world.pc t).holds = true := by rw [hpc]; simp [Pc.holds, hu]
    have hold : (w.world.pc t).entry t = some ⟨t, call, some (.ok plan), none⟩ := by rw [hpc]; rfl
    have hd := hi.decided (hi.running hold) rfl
    refine hi.put hlock rfl (show w.log.note interaction w.world t .update =
        w.log.put t ⟨t, call, some (.ok plan), some .ok⟩ by simp only [Log.note, hpc, endOf])
      hold (fun _ he => by cases he) (fun hh => by cases hh) ?_ (.inr hh) ?_ (fun _ => ⟨plan, rfl⟩) (fun _ hp => hp) ?_
    · -- the plan was made from the state that is still there
      show plan.next = _
      have hplan : call.decide interaction w.world.state = .ok plan := by
        rw [hi.state_before hold hh]
        exact hd.symm
      simp [Entry.apply, Entry.succeeded, Call.effect, hu, hplan]
    · intro decision hdecision
      cases hdecision
      exact hd
    · exact (hkeeps _ rfl).trans hi.traced.symm
  | @settle t call plan outcome hpc hu =>
    have hold : (w.world.pc t).entry t = some ⟨t, call, some (.ok plan), none⟩ := by rw [hpc]; rfl
    have hquiet : ∀ s, (⟨t, call, some (.ok plan), some (endOf outcome)⟩ : Entry E).apply interaction s = s := by
      rcases outcome with error | response
      · exact apply_of_not_ok (by simp [endOf])
      · exact apply_of_unlocks (hu response rfl)
    refine hi.put hlock rfl (show w.log.note interaction w.world t .update =
        w.log.put t ⟨t, call, some (.ok plan), some (endOf outcome)⟩ by simp only [Log.note, hpc])
      hold (fun _ he => by cases he) (fun hh => by cases hh) (hquiet _).symm (.inl hquiet) ?_ (fun _ => ⟨plan, rfl⟩)
      (fun _ hp => hp) rfl
    have hd := hi.decided (hi.running hold) rfl
    intro decision hdecision
    cases hdecision
    exact hd
  | @finish t call outcome hpc =>
    exact hi.carry hlock rfl rfl rfl rfl (fun _ he => by cases he) (fun hh => by cases hh) (fun _ hx => .inl hx)
      (hkeeps _ rfl)

theorem kept_drop {w : Tracked δ E ρ} {t : Nat} {abandoned : List (Request E)} (hi : Kept interaction w) :
    Kept interaction ⟨w.world.release t, w.log.dropped t ((w.world.pc t).entry t), abandoned⟩ := by
  have hlock : LockInv interaction (w.world.release t) := by
    refine hi.lock.goto rfl ?_ (.inl rfl) (fun h => by cases h) (fun _ _ h => by cases h) (fun _ _ h => by cases h)
    by_cases ho : w.world.owner = some t
    · exact .inr (.inr ho)
    · exact .inl (if_neg ho)
  cases hentry : (w.world.pc t).entry t with
  | none =>
    exact hi.carry hlock rfl rfl rfl rfl (fun _ he => by cases he) (fun hh => by cases hh) (fun _ hx => .inl hx) hi.traced
  | some entry =>
    have hquiet : ∀ s, { entry with ending := some End.dropped }.apply interaction s = s := apply_of_not_ok (by simp)
    refine hi.put hlock rfl rfl hentry (fun _ he => by cases he) (fun hh => by cases hh) (hquiet _).symm (.inl hquiet) ?_
      (fun hok => by cases hok) (fun _ hp => hp) rfl
    have hd := fun decision => @hi.decided _ _ decision (hi.running hentry)
    exact hd

theorem kept_step {w w' : Tracked δ E ρ} {m : Nat × Act E} (hi : Kept interaction w)
    (h : stepDropping interaction handle w m = some w') : Kept interaction w' := by
  obtain ⟨t, act⟩ := m
  cases act with
  | move move =>
    simp only [stepDropping] at h
    split at h
    · cases h
    · rename_i world hs
      cases h
      exact kept_move hi (step_moves hs)
  | drop =>
    simp only [stepDropping] at h
    split at h
    · cases h
      exact kept_drop hi
    · cases h
  | landAbandoned index =>
    simp only [stepDropping] at h
    split at h
    · cases h
    split at h
    · cases h
    · cases h
      refine ⟨⟨hi.lock.owned, hi.lock.fresh, hi.lock.released⟩, hi.state, hi.decided, hi.succeeded,
        hi.running, hi.last, hi.sent, hi.traced⟩

theorem kept_run {server : δ} {acts : List (Nat × Act E)} {w : Tracked δ E ρ}
    (h : run (stepDropping interaction handle) (Tracked.start server) acts = some w) : Kept interaction w :=
  run_invariant (fun _ _ _ hi hs => kept_step hi hs) h (kept_start server)

/-! ## The successful calls alone -/

def accepts (_ : Unit) (_ : Request E) : Option (Unit × Unit) := some ((), ())

/-- One call of task 0, from its start to its return. -/
def callActs (call : Call E) : List (Nat × Act E) :=
  let moves : List (Move E) :=
    if call.unlocks then [.call call, .acquire, .decide, .unlock, .send, .land, .answer, .update, .finish]
    else [.call call, .acquire, .decide, .send, .land, .answer, .update, .finish]
  moves.map fun move => (0, .move move)

theorem decide_run {w : Tracked Unit E Unit} {call : Call E} {plan : Plan E} (hpc : w.world.pc 0 = .idle)
    (ho : w.world.owner = none) (hd : call.decide interaction w.world.state = .ok plan) :
    ∃ w', run (stepDropping interaction accepts) w
        [(0, .move (.call call)), (0, .move .acquire), (0, .move .decide)] = some w' ∧
      w'.world.pc 0 = .planned call plan ∧ w'.world.owner = some 0 ∧ w'.world.state = w.world.state ∧
      w'.log.entries = w.log.entries ++ [⟨0, call, some (.ok plan), none⟩] ∧
      w'.log.current 0 = w.log.entries.length := by
  simp [run, stepDropping, step, Log.note, Log.put, World.goto, hpc, ho, hd]

/-- The second half: it sends, and returns with the answer. -/
theorem return_run {w : Tracked Unit E Unit} {call : Call E} {plan : Plan E} {earlier : List (Entry E)}
    (hpc : w.world.pc 0 = .planned call plan) (ho : w.world.owner = some 0)
    (he : w.log.entries = earlier ++ [⟨0, call, some (.ok plan), none⟩]) (hc : w.log.current 0 = earlier.length) :
    ∃ w', run (stepDropping interaction accepts) w
        ((if call.unlocks then [(0, .move .unlock)] else []) ++
          [(0, .move .send), (0, .move .land), (0, .move .answer), (0, .move .update), (0, .move .finish)]) = some w' ∧
      w'.world.pc 0 = .idle ∧ w'.world.owner = none ∧
      w'.world.state = (if call.unlocks then w.world.state else plan.next) ∧
      w'.log.entries = earlier ++ [⟨0, call, some (.ok plan), some .ok⟩] := by
  by_cases hu : call.unlocks = true
  · simp [hu, run, stepDropping, step, Log.note, Log.put, World.goto, World.emit, hpc, he, hc, accepts, endOf]
  · simp [hu, run, stepDropping, step, Log.note, Log.put, World.goto, World.emit, hpc, ho, he, hc, accepts, endOf]

theorem call_run {w : Tracked Unit E Unit} {call : Call E} {plan : Plan E} (hpc : w.world.pc 0 = .idle)
    (ho : w.world.owner = none) (hd : call.decide interaction w.world.state = .ok plan) :
    ∃ w', run (stepDropping interaction accepts) w (callActs call) = some w' ∧ w'.world.pc 0 = .idle ∧
      w'.world.owner = none ∧ w'.world.state = call.effect interaction w.world.state ∧
      w'.log.entries = w.log.entries ++ [⟨0, call, some (.ok plan), some .ok⟩] := by
  obtain ⟨w₁, hrun₁, hpc₁, ho₁, hstate₁, he₁, hc₁⟩ := decide_run hpc ho hd
  obtain ⟨w₂, hrun₂, hpc₂, ho₂, hstate₂, he₂⟩ := return_run hpc₁ ho₁ he₁ hc₁
  refine ⟨w₂, ?_, hpc₂, ho₂, ?_, he₂⟩
  · have hacts : callActs call = [(0, .move (.call call)), (0, .move .acquire), (0, .move .decide)] ++
        ((if call.unlocks then [(0, .move .unlock)] else []) ++
          [(0, .move .send), (0, .move .land), (0, .move .answer), (0, .move .update), (0, .move .finish)]) := by
      unfold callActs
      cases call.unlocks <;> rfl
    rw [hacts]
    exact run_append hrun₁ hrun₂
  · rw [hstate₂, hstate₁]
    simp only [Call.effect, hd]

def Entry.decided (entry : Entry E) : Call E × Option (Except Error (Plan E)) := (entry.call, entry.decision)

/-- A history whose decisions are made from the successful calls before: the successful
    calls alone are a run, with the same decisions and the same state. -/
theorem replay_run (entries : List (Entry E))
    (hdecided : ∀ {i : Nat} {entry : Entry E} {decision : Except Error (Plan E)}, entries[i]? = some entry →
      entry.decision = some decision →
      decision = entry.call.decide interaction (stateAfter interaction .pending (entries.take i)))
    (hsucceeded : ∀ {i : Nat} {entry : Entry E}, entries[i]? = some entry → entry.ending = some .ok →
      ∃ plan, entry.decision = some (.ok plan)) :
    ∃ acts w', run (stepDropping interaction accepts) (Tracked.start () : Tracked Unit E Unit) acts = some w' ∧
      w'.world.pc 0 = .idle ∧ w'.world.owner = none ∧ w'.world.state = stateAfter interaction .pending entries ∧
      w'.log.entries.map Entry.decided = (entries.filter Entry.succeeded).map Entry.decided ∧
      ∀ entry ∈ w'.log.entries, entry.ending = some .ok := by
  induction entries using List.reverseRecOn with
  | nil => exact ⟨[], _, rfl, rfl, rfl, rfl, rfl, fun _ h => by cases h⟩
  | append_singleton entries entry ih =>
    have hleft : ∀ {i : Nat} {e : Entry E}, entries[i]? = some e → (entries ++ [entry])[i]? = some e := by
      intro i e he
      rw [List.getElem?_append_left (List.getElem?_eq_some_iff.mp he).1]
      exact he
    have hlast : (entries ++ [entry])[entries.length]? = some entry := by simp
    obtain ⟨acts, w', hrun, hpc, ho, hstate, hmap, hok⟩ := ih
      (fun {i e decision} he hd => by
        have h := hdecided (hleft he) hd
        rwa [List.take_append_of_le_length (Nat.le_of_lt (List.getElem?_eq_some_iff.mp he).1)] at h)
      (fun he hok => hsucceeded (hleft he) hok)
    rw [stateAfter_concat, List.filter_append, List.map_append]
    by_cases hs : entry.succeeded = true
    · obtain ⟨plan, hplan⟩ := hsucceeded hlast (by simpa [Entry.succeeded] using hs)
      have hd := hdecided hlast hplan
      rw [List.take_left, ← hstate] at hd
      obtain ⟨w'', hrun', hpc', ho', hstate', hentries⟩ := call_run hpc ho hd.symm
      refine ⟨acts ++ callActs entry.call, w'', run_append hrun hrun', hpc', ho', ?_, ?_, ?_⟩
      · rw [hstate', hstate, Entry.apply, if_pos hs]
      · rw [hentries, List.map_append, hmap]
        simp [hs, Entry.decided, hplan]
      · intro e he
        rw [hentries] at he
        rcases List.mem_append.mp he with he | he
        · exact hok e he
        · rw [List.mem_singleton.mp he]
    · refine ⟨acts, w', hrun, hpc, ho, ?_, ?_, hok⟩
      · rw [hstate, Entry.apply, if_neg hs]
      · rw [hmap]
        simp [hs]

/-- Every call, successful or not, decides as if only the successful calls before it had
    been made, and the state is what the successful calls lead to; they alone are a run. A
    call that its guard refuses sends nothing. A call made again before another one
    succeeds decides as it did. -/
theorem failed_calls_invisible {server : δ} {acts : List (Nat × Act E)} {w : Tracked δ E ρ}
    (h : run (stepDropping interaction handle) (Tracked.start server) acts = some w) :
    w.world.state = replay interaction (kept w.log.entries) ∧
      (∀ (i : Nat) (entry : Entry E) (decision : Except Error (Plan E)), w.log.entries[i]? = some entry →
        entry.decision = some decision →
        decision = entry.call.decide interaction (replay interaction (kept (w.log.entries.take i)))) ∧
      (∃ acts' w', run (stepDropping interaction accepts) (Tracked.start () : Tracked Unit E Unit) acts' = some w' ∧
        w'.world.state = w.world.state ∧
        w'.log.entries.map Entry.decided = (w.log.entries.filter Entry.succeeded).map Entry.decided ∧
        ∀ entry ∈ w'.log.entries, entry.ending = some .ok) ∧
      (∀ (i : Nat) (entry : Entry E) (error : Error), w.log.entries[i]? = some entry →
        entry.decision = some (.error error) → ∀ request, (i, request) ∉ w.log.sent) ∧
      w.world.trace.filterMap Event.request = w.log.sent.map (·.2) ∧
      (∀ (i j : Nat) (first retry : Entry E), w.log.entries[i]? = some first → w.log.entries[j]? = some retry → i ≤ j →
        retry.call = first.call →
        (∀ (k : Nat) (entry : Entry E), i ≤ k → k < j → w.log.entries[k]? = some entry → entry.ending ≠ some .ok) →
        ∀ decision again, first.decision = some decision → retry.decision = some again → again = decision) := by
  have hi := kept_run h
  refine ⟨by rw [replay_kept]; exact hi.state, fun i entry decision he hd => by rw [replay_kept]; exact hi.decided he hd,
    ?_, ?_, hi.traced, ?_⟩
  · obtain ⟨acts', w', hrun, -, -, hstate, hmap, hok⟩ := replay_run w.log.entries hi.decided hi.succeeded
    exact ⟨acts', w', hrun, hstate.trans hi.state.symm, hmap, hok⟩
  · intro i entry error he hd request hx
    obtain ⟨sender, plan, hs, hplan, -⟩ := hi.sent hx
    rw [he] at hs
    cases hs
    rw [hd] at hplan
    cases hplan
  · intro i j first retry hfirst hretry hle hcall hnone decision again hd hagain
    rw [hi.decided hretry hagain, hi.decided hfirst hd, hcall]
    -- the entries from `i` on make nothing of the state
    have hsplit : w.log.entries.take j = w.log.entries.take i ++ (w.log.entries.drop i).take (j - i) := by
      rw [← List.take_add, Nat.add_sub_cancel' hle]
    rw [hsplit, stateAfter_append]
    intro entry hm
    obtain ⟨k, hk⟩ := List.mem_iff_getElem?.mp hm
    rw [List.getElem?_take] at hk
    split at hk
    · rename_i hlt
      rw [List.getElem?_drop] at hk
      exact hnone (i + k) entry (by omega) (by omega) hk
    · cases hk

/-- A reply fails, a deferral of another task is dropped in flight, and the reply made again
    is the first: the state is what it alone leads to. -/
theorem failed_calls_invisible_retry :
    let interaction : Interaction := ⟨1, 2, .applicationCommand, "token", none, none, none, none, .ok none⟩
    let reply : Call Unit := Context.reply "done"
    let acts : List (Nat × Act Unit) := [(0, .move (.call reply)), (0, .move .acquire), (0, .move .decide),
      (1, .move (.call (Context.defer))), (0, .move .send), (0, .move (.fail (.gloamwire "timeout"))), (0, .move .update),
      (0, .move .finish), (1, .move .acquire), (1, .move .decide), (1, .move .send), (1, .drop)] ++ callActs reply
    ∃ w : Tracked Unit Unit Unit, run (stepDropping interaction accepts) (Tracked.start ()) acts = some w ∧
      w.log.entries.map (·.ending) = [some (.error (.gloamwire "timeout")), some .dropped, some .ok] ∧
      w.world.state = .responded ∧ w.world.state = replay interaction (kept w.log.entries) := by
  intro interaction reply acts
  exact ⟨_, rfl, rfl, rfl, (@failed_calls_invisible Unit Unit Unit interaction accepts () acts _ rfl).1⟩

end GloamCommands.Response
