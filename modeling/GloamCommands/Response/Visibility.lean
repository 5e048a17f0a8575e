/-
  GloamCommands.Response.Visibility — the visibility a helper asks for and the one shown.

  Discord, as documented: an initial message and a deferral have the visibility of their
  flags; an edit keeps the original's; a followup is a new message with the visibility
  of its flags, unless the original is an unanswered deferral: then it edits that and
  its flags are ignored. `discord` says so; its answer is the visibility in which the
  payload is shown. The server of a run is any that answers accordingly (`Documents`).

  `reply` in a deferral of the other visibility is refused before it sends anything.
  `followup` only checks that the interaction is acknowledged, so it sends there, and
  its payload appears with the deferral's visibility:
  - `followup_shows_secret`: `defer`, then `followup_ephemeral`, which returns `Ok` and
    is shown in public.
  - `visibility_iff`: a run keeps what its helpers ask for exactly if no `followup` is
    let through while the original is an unanswered deferral of the other visibility.
-/

import GloamCommands.Response.Acknowledge

namespace GloamCommands.Response

open Lib (run run_along along_map Along)

variable {E : Type} {interaction : Interaction}

/-! ## Discord -/

inductive Original where
  | none
  | deferral (ephemeral : Bool)
  | message (ephemeral : Bool)
  | deleted
  deriving DecidableEq, Repr

def InteractionMessageData.isEphemeral (data : InteractionMessageData E) : Bool :=
  data.flags.any fun flags => flags &&& MessageFlags.ephemeral != 0

/-- What Discord makes of a request, and where its payload shows; `none` if it refuses. -/
def discord (original : Original) (request : Request E) : Option (Original × Option Bool) :=
  match request, original with
  | .createInteractionResponse _ _ response, .none =>
    let ephemeral := response.data.any (·.isEphemeral)
    match response.kind with
    | .channelMessageWithSource => some (.message ephemeral, some ephemeral)
    | .deferredChannelMessageWithSource => some (.deferral ephemeral, none)
  | .editOriginalInteractionResponse .., .deferral ephemeral => some (.message ephemeral, some ephemeral)
  | .editOriginalInteractionResponse .., .message ephemeral => some (.message ephemeral, some ephemeral)
  | .deleteOriginalInteractionResponse .., .deferral _ => some (.deleted, none)
  | .deleteOriginalInteractionResponse .., .message _ => some (.deleted, none)
  -- the deferred message is still unanswered: the followup answers it
  | .createFollowupMessage .., .deferral ephemeral => some (.message ephemeral, some ephemeral)
  | .createFollowupMessage _ _ data, .message ephemeral => some (.message ephemeral, some data.isEphemeral)
  | .createFollowupMessage _ _ data, .deleted => some (.deleted, some data.isEphemeral)
  | _, _ => none

theorem discord_documents : Documents (discord (E := E)) discord id id := fun _ _ _ _ h => h

theorem isEphemeral_intoMessageData (payload : MessagePayload E) (ephemeral : Bool) :
    (payload.intoMessageData ephemeral).isEphemeral = ephemeral := by
  cases payload <;> cases ephemeral <;> rfl

/-! ## What is kept -/

def Honoured (call : Call E) (shown : Option Bool) : Prop :=
  ∀ ephemeral, call.requested = some ephemeral → shown = some ephemeral

section Server

variable {S R : Type} (interaction : Interaction) (server : S → Request E → Option (S × R)) (view : S → Original)
  (shows : R → Option Bool)

inductive Conflicts (w : World S E R) : Call E → Prop
  | reply {payload : MessagePayload E} {ephemeral visibility : Bool} : w.state = .deferred visibility →
      visibility ≠ ephemeral → Conflicts w (.reply payload ephemeral)
  | followup {payload : MessagePayload E} {ephemeral visibility : Bool} : view w.server = .deferral visibility →
      visibility ≠ ephemeral → Conflicts w (.followup payload ephemeral)

/-- A message helper that cannot show as it asks is refused, with nothing sent. -/
def Refuses (w : World S E R) (m : Nat × Move E) : Prop :=
  ∀ call, m.2 = .decide → w.pc m.1 = .holding call → Conflicts view w call →
    ∃ w' error, step interaction server w m = some w' ∧ w'.pc m.1 = .finished call (.error error) ∧
      w'.trace = w.trace

/-- Every `Ok` of a message helper shows as asked, and what cannot is refused. -/
def VisibilityKept (start : S) (moves : List (Nat × Move E)) (w : World S E R) : Prop :=
  (∀ t call response, .returned t call (.ok response) ∈ w.trace → Honoured call (shows response)) ∧
    Along (step interaction server) (Refuses interaction server view) (World.start start) moves

/-- No `followup` is let through while the original is an unanswered deferral of the
    other visibility. -/
def Agreeing (w : World S E R) (m : Nat × Move E) : Prop :=
  ∀ payload ephemeral visibility, m.2 = .decide → w.pc m.1 = .holding (.followup payload ephemeral) →
    w.state ≠ .pending → view w.server = .deferral visibility → visibility = ephemeral

end Server

/-- The shared state is what Discord has. A deletion may have landed with its answer lost. -/
def Tracks : ResponseState → Original → Prop
  | .pending, _ => True
  | .deferred ephemeral, original =>
    original = .deferral ephemeral ∨ original = .message ephemeral ∨ original = .deleted
  | .responded, original => (∃ ephemeral, original = .message ephemeral) ∨ original = .deleted
  | .deleted, original => original = .deleted

/-- A followup of this visibility may land: there is something to follow, and no
    unanswered deferral of the other visibility. -/
def Open (original : Original) (ephemeral : Bool) : Prop :=
  original ≠ .none ∧ ∀ visibility, original = .deferral visibility → visibility = ephemeral

theorem open_message (visibility ephemeral : Bool) : Open (.message visibility) ephemeral :=
  ⟨by simp, fun _ hd => by cases hd⟩

theorem open_deleted (ephemeral : Bool) : Open .deleted ephemeral := ⟨by simp, fun _ hd => by cases hd⟩

theorem tracks_ne_none {state : ResponseState} {original : Original} (h : Tracks state original)
    (hp : state ≠ .pending) : original ≠ .none := by
  rintro rfl
  cases state with
  | pending => exact hp rfl
  | deferred => simp [Tracks] at h
  | responded => simp [Tracks] at h
  | deleted => cases h

theorem open_of_tracks {state : ResponseState} {original : Original} (h : Tracks state original)
    (hs : state = .responded ∨ state = .deleted) (ephemeral : Bool) : Open original ephemeral := by
  rcases hs with rfl | rfl
  · rcases h with ⟨visibility, rfl⟩ | rfl
    · exact open_message visibility ephemeral
    · exact open_deleted ephemeral
  · cases h
    exact open_deleted ephemeral

/-! ## Landing -/

/-- A followup that may land shows as it asked, and only answers the deferral. -/
theorem land_followup {original original' : Original} {a : ApplicationId} {t : String}
    {payload : MessagePayload E} {ephemeral : Bool} {shown : Option Bool} (ho : Open original ephemeral)
    (h : discord original (.createFollowupMessage a t (payload.intoMessageData ephemeral)) = some (original', shown)) :
    shown = some ephemeral ∧ (original' = original ∨ ∃ v, original = .deferral v ∧ original' = .message v) := by
  cases original with
  | none => exact absurd rfl ho.1
  | deferral v =>
    have hv := ho.2 v rfl
    subst hv
    cases h
    exact ⟨rfl, .inr ⟨v, rfl, rfl⟩⟩
  | message v =>
    simp only [discord, isEphemeral_intoMessageData, Option.some.injEq, Prod.mk.injEq] at h
    exact ⟨h.2.symm, .inl h.1.symm⟩
  | deleted =>
    simp only [discord, isEphemeral_intoMessageData, Option.some.injEq, Prod.mk.injEq] at h
    exact ⟨h.2.symm, .inl h.1.symm⟩

theorem tracks_answered {state : ResponseState} {original original' : Original} (h : Tracks state original)
    (hl : original' = original ∨ ∃ v, original = .deferral v ∧ original' = .message v) : Tracks state original' := by
  rcases hl with rfl | ⟨v, rfl, rfl⟩
  · exact h
  · cases state with
    | pending => trivial
    | deferred e =>
      rcases h with h | h | h
      · cases h; exact .inr (.inl rfl)
      · cases h
      · cases h
    | responded =>
      rcases h with ⟨e, h⟩ | h
      · cases h
      · cases h
    | deleted => cases h

/-- What lands leaves something there, and puts a deferral only where nothing was. -/
theorem land_open {original original' : Original} {request : Request E} {shown : Option Bool} {ephemeral : Bool}
    (h : discord original request = some (original', shown)) (ho : Open original ephemeral) :
    Open original' ephemeral := by
  obtain ⟨hne, hv⟩ := ho
  cases original with
  | none => exact absurd rfl hne
  | deferral v => cases request <;> cases h <;> first | exact open_message v ephemeral | exact open_deleted ephemeral
  | message v => cases request <;> cases h <;> first | exact open_message v ephemeral | exact open_deleted ephemeral
  | deleted =>
    cases request <;> cases h
    exact open_deleted ephemeral

/-- A plan made in the current state lands as it asked: Discord then has what the state
    will be, and what the state was still fits. -/
theorem land_planned {call : Call E} {state : ResponseState} {plan : Plan E} {original original' : Original}
    {shown : Option Bool} (hp : Planned interaction call state plan) (ht : Tracks state original)
    (hf : ∀ payload ephemeral, call = .followup payload ephemeral → Open original ephemeral)
    (h : discord original plan.request = some (original', shown)) :
    Honoured call shown ∧ Tracks state original' ∧ Tracks plan.next original' := by
  cases hp with
  | initial payload ephemeral =>
    cases original with
    | none =>
      simp only [discord, Option.any_some, isEphemeral_intoMessageData, Option.some.injEq, Prod.mk.injEq] at h
      obtain ⟨rfl, rfl⟩ := h
      exact ⟨fun e he => by cases he; rfl, trivial, .inl ⟨ephemeral, rfl⟩⟩
    | _ => cases h
  | deferral ephemeral =>
    cases original with
    | none =>
      have hl : original' = .deferral ephemeral := by cases ephemeral <;> (cases h; rfl)
      exact ⟨fun e he => (by cases he), trivial, .inl hl⟩
    | _ => cases h
  | complete payload ephemeral =>
    rcases ht with rfl | rfl | rfl
    · cases h
      exact ⟨fun e he => by cases he; rfl, .inr (.inl rfl), .inl ⟨ephemeral, rfl⟩⟩
    · cases h
      exact ⟨fun e he => by cases he; rfl, .inr (.inl rfl), .inl ⟨ephemeral, rfl⟩⟩
    · cases h
  | later payload ephemeral hs =>
    obtain ⟨hshown, hl⟩ := land_followup (open_of_tracks ht hs ephemeral) h
    have ht' := tracks_answered ht hl
    exact ⟨fun e he => by cases he; exact hshown, ht', ht'⟩
  | edit payload hp hd =>
    have ht' : ∃ v, original' = .message v ∧ (original = .deferral v ∨ original = .message v) := by
      cases original <;> cases h <;> simp
    obtain ⟨v, rfl, ho⟩ := ht'
    refine ⟨fun e he => (by cases he), ?_, .inl ⟨v, rfl⟩⟩
    rcases ho with rfl | rfl
    · exact tracks_answered ht (.inr ⟨v, rfl, rfl⟩)
    · exact ht
  | delete hp hd =>
    have ht' : original' = .deleted := by
      cases original <;> cases h <;> rfl
    subst ht'
    refine ⟨fun e he => (by cases he), ?_, rfl⟩
    cases state with
    | pending => trivial
    | deferred _ => exact .inr (.inr rfl)
    | responded => exact .inr rfl
    | deleted => rfl
  | followup payload ephemeral hne =>
    obtain ⟨hshown, hl⟩ := land_followup (hf payload ephemeral rfl) h
    have ht' := tracks_answered ht hl
    exact ⟨fun e he => by cases he; exact hshown, ht', ht'⟩

/-! ## The invariant -/

def Pc.aimed {ρ : Type} : Pc E ρ → Option (Call E × Plan E)
  | .planned call plan => some (call, plan)
  | .unlocked call plan => some (call, plan)
  | .inFlight call plan => some (call, plan)
  | _ => none

def Pc.success {ρ : Type} : Pc E ρ → Option (Call E × Plan E)
  | .landed call plan _ => some (call, plan)
  | .answered call plan (.ok _) => some (call, plan)
  | _ => none

def Pc.response {ρ : Type} : Pc E ρ → Option (Call E × ρ)
  | .landed call _ response => some (call, response)
  | .answered call _ (.ok response) => some (call, response)
  | .finished call (.ok response) => some (call, response)
  | _ => none

structure VisibilityInv (w : World Original E (Option Bool)) : Prop where
  tracks : Tracks w.state w.server
  aimed : ∀ t payload ephemeral plan, (w.pc t).aimed = some (.followup payload ephemeral, plan) →
    Open w.server ephemeral
  next : ∀ t call plan, (w.pc t).success = some (call, plan) → (w.pc t).holds = true → Tracks plan.next w.server
  shown : ∀ t call shown, (w.pc t).response = some (call, shown) → Honoured call shown
  returned : ∀ t call shown, .returned t call (.ok shown) ∈ w.trace → Honoured call shown

theorem visibility_start : VisibilityInv (World.start .none : World Original E (Option Bool)) := by
  refine ⟨trivial, ?_, ?_, ?_, ?_⟩
  · intro t payload ephemeral plan h; cases h
  · intro t call plan h; cases h
  · intro t call shown h; cases h
  · intro t call shown h; cases h

theorem VisibilityInv.goto {w w' : World Original E (Option Bool)} {t : Nat} {p : Pc E (Option Bool)}
    (hv : VisibilityInv w) (hpc : w'.pc = Function.update w.pc t p) (hserver : w'.server = w.server)
    (hstate : Tracks w'.state w.server)
    (haimed : ∀ payload ephemeral plan, p.aimed = some (.followup payload ephemeral, plan) → Open w.server ephemeral)
    (hnext : ∀ call plan, p.success = some (call, plan) → p.holds = true → Tracks plan.next w.server)
    (hshown : ∀ call shown, p.response = some (call, shown) → Honoured call shown)
    (hret : ∀ u call shown, .returned u call (.ok shown) ∈ w'.trace → Honoured call shown) : VisibilityInv w' := by
  have hother : ∀ u, u ≠ t → w'.pc u = w.pc u := fun u hu => by rw [hpc, Function.update_of_ne hu]
  have hself : w'.pc t = p := by rw [hpc, Function.update_self]
  refine ⟨by rw [hserver]; exact hstate, fun u payload e plan h => ?_, fun u call plan h hh => ?_,
    fun u call shown h => ?_, hret⟩
  · rw [hserver]
    by_cases hu : u = t
    · subst hu; rw [hself] at h; exact haimed payload e plan h
    · rw [hother u hu] at h; exact hv.aimed u payload e plan h
  · rw [hserver]
    by_cases hu : u = t
    · subst hu; rw [hself] at h hh; exact hnext call plan h hh
    · rw [hother u hu] at h hh; exact hv.next u call plan h hh
  · by_cases hu : u = t
    · subst hu; rw [hself] at h; exact hshown call shown h
    · rw [hother u hu] at h; exact hv.shown u call shown h

theorem VisibilityInv.quiet {w w' : World Original E (Option Bool)} {t : Nat} {p : Pc E (Option Bool)}
    (hv : VisibilityInv w) (hpc : w'.pc = Function.update w.pc t p) (hserver : w'.server = w.server)
    (hstate : w'.state = w.state) (haimed : p.aimed = none) (hsuccess : p.success = none) (hresponse : p.response = none)
    (hret : ∀ u call shown, .returned u call (.ok shown) ∈ w'.trace → Honoured call shown) : VisibilityInv w' :=
  hv.goto hpc hserver (by rw [hstate]; exact hv.tracks) (fun _ _ _ h => by rw [haimed] at h; cases h)
    (fun _ _ h => by rw [hsuccess] at h; cases h) (fun _ _ h => by rw [hresponse] at h; cases h) hret

theorem returned_old {w : World Original E (Option Bool)} (hv : VisibilityInv w) {e : Event E (Option Bool)}
    (he : ∀ u call shown, e ≠ .returned u call (.ok shown)) :
    ∀ u call shown, .returned u call (.ok shown) ∈ w.trace ++ [e] → Honoured call shown := by
  intro u call shown h
  rcases List.mem_append.mp h with h | h
  · exact hv.returned u call shown h
  · exact absurd (List.mem_singleton.mp h).symm (he u call shown)

/-- What landing does at the task whose request lands. -/
theorem land_at {w : World Original E (Option Bool)} (hl : LockInv interaction w) (hv : VisibilityInv w) {t : Nat}
    {call : Call E} {plan : Plan E} {original : Original} {shown : Option Bool} (hpc : w.pc t = .inFlight call plan)
    (h : discord w.server plan.request = some (original, shown)) :
    Honoured call shown ∧ Tracks w.state original ∧ (call.unlocks = false → Tracks plan.next original) ∧
      (call.unlocks = true →
        original = w.server ∨ ∃ v, w.server = .deferral v ∧ original = .message v) := by
  obtain ⟨state, hp, hcur, -⟩ := hl.fresh t call plan (by rw [hpc]; rfl)
  cases hu : call.unlocks with
  | false =>
    have hcur := hcur (by rw [hpc]; simp [Pc.holds, hu])
    subst hcur
    have hf : ∀ payload ephemeral, call = .followup payload ephemeral → Open w.server ephemeral := by
      intro payload ephemeral heq
      rw [heq] at hu
      cases hu
    obtain ⟨hh, ht, hn⟩ := land_planned hp hv.tracks hf h
    exact ⟨hh, ht, fun _ => hn, fun h => by cases h⟩
  | true =>
    cases hp with
    | followup payload ephemeral hne =>
      obtain ⟨hs, hl'⟩ := land_followup (hv.aimed t payload ephemeral _ (by rw [hpc]; rfl)) h
      exact ⟨fun e he => by cases he; exact hs, tracks_answered hv.tracks hl', fun h => (by cases h), fun _ => hl'⟩
    | _ => cases hu

theorem visibility_moves {w w' : World Original E (Option Bool)} {m : Nat × Move E} (hl : LockInv interaction w)
    (hv : VisibilityInv w) (hg : Agreeing id w m) (h : Moves interaction discord w m w') : VisibilityInv w' := by
  cases h with
  | call hpc => exact hv.quiet rfl rfl rfl rfl rfl rfl hv.returned
  | acquire hpc ho => exact hv.quiet rfl rfl rfl rfl rfl rfl hv.returned
  | refuse hpc hd => exact hv.quiet rfl rfl rfl rfl rfl rfl hv.returned
  | @plan t call plan hpc hd =>
    refine hv.goto rfl rfl hv.tracks (fun payload ephemeral _ h => ?_) (fun _ _ h => by cases h)
      (fun _ _ h => by cases h) hv.returned
    cases h
    cases decide_planned hd with
    | followup _ _ hne =>
      exact ⟨tracks_ne_none hv.tracks hne, fun visibility hs => hg payload ephemeral visibility rfl hpc hne hs⟩
  | @unlock t call plan hpc hu =>
    refine hv.goto rfl rfl hv.tracks (fun payload ephemeral _ h => ?_) (fun _ _ h => by cases h)
      (fun _ _ h => by cases h) hv.returned
    exact hv.aimed t payload ephemeral plan (by rw [hpc]; cases h; rfl)
  | @send t call plan hpc =>
    refine hv.goto rfl rfl hv.tracks (fun payload ephemeral _ h => ?_) (fun _ _ h => by cases h)
      (fun _ _ h => by cases h) (returned_old hv (by simp))
    cases h
    rcases hpc with ⟨hpc, -⟩ | hpc <;> exact hv.aimed t payload ephemeral plan (by rw [hpc]; rfl)
  | @land t call plan original shown hpc hd =>
    obtain ⟨hh, ht, hn, hopen⟩ := land_at hl hv hpc hd
    have hother : ∀ u, u ≠ t → Function.update w.pc t (.landed call plan shown) u = w.pc u := fun u hu =>
      Function.update_of_ne hu _ _
    have hself : Function.update w.pc t (.landed call plan shown) t = .landed call plan shown :=
      Function.update_self _ _ _
    refine ⟨ht, fun u payload e p h => ?_, fun u c p h hholds => ?_, fun u c s h => ?_, returned_old hv (by simp)⟩
    · change (Function.update w.pc t (.landed call plan shown) u).aimed = _ at h
      by_cases hu : u = t
      · subst hu; rw [hself] at h; cases h
      · rw [hother u hu] at h
        exact land_open hd (hv.aimed u payload e p h)
    · change (Function.update w.pc t (.landed call plan shown) u).success = _ at h
      change (Function.update w.pc t (.landed call plan shown) u).holds = _ at hholds
      by_cases hu : u = t
      · subst hu
        rw [hself] at h hholds
        cases h
        exact hn (by simpa [Pc.holds] using hholds)
      · rw [hother u hu] at h hholds
        cases hun : call.unlocks with
        | true => exact tracks_answered (hv.next u c p h hholds) (hopen hun)
        | false =>
          -- both would have the lock
          have ht : w.owner = some t := hl.owned t (by rw [hpc]; simp [Pc.holds, hun])
          have hu' := hl.owned u hholds
          rw [ht] at hu'
          exact absurd (Option.some.inj hu').symm hu
    · change (Function.update w.pc t (.landed call plan shown) u).response = _ at h
      by_cases hu : u = t
      · subst hu; rw [hself] at h; cases h; exact hh
      · rw [hother u hu] at h; exact hv.shown u c s h
  | @answer t call plan shown hpc =>
    refine hv.goto rfl rfl hv.tracks (fun _ _ _ h => by cases h) (fun c p h hh => ?_) (fun c s h => ?_)
      (returned_old hv (by simp))
    · cases h
      exact hv.next t call plan (by rw [hpc]; rfl) (by rw [hpc]; exact hh)
    · cases h
      exact hv.shown t call shown (by rw [hpc]; rfl)
  | fail hpc => exact hv.quiet rfl rfl rfl rfl rfl rfl (returned_old hv (by simp))
  | @record t call plan shown hpc hu =>
    have hnext := hv.next t call plan (by rw [hpc]; rfl) (by rw [hpc]; simp [Pc.holds, hu])
    refine hv.goto rfl rfl hnext (fun _ _ _ h => by cases h) (fun _ _ h => by cases h) (fun c s h => ?_)
      (returned_old hv (by simp))
    cases h
    exact hv.shown t call shown (by rw [hpc]; rfl)
  | @settle t call plan outcome hpc hu =>
    refine hv.goto rfl rfl hv.tracks (fun _ _ _ h => by cases h) (fun _ _ h => by cases h) (fun c s h => ?_)
      hv.returned
    cases outcome with
    | error => cases h
    | ok shown =>
      cases h
      exact hv.shown t call _ (by rw [hpc]; rfl)
  | @finish t call outcome hpc =>
    refine hv.quiet rfl rfl rfl rfl rfl rfl fun u c shown h => ?_
    rcases List.mem_append.mp h with h | h
    · exact hv.returned u c shown h
    · cases List.mem_singleton.mp h
      exact hv.shown t call shown (by rw [hpc]; rfl)

/-! ## The law, and where it fails -/

theorem reply_refused {state : ResponseState} {payload : MessagePayload E} {ephemeral visibility : Bool}
    (hs : state = .deferred visibility) (hne : visibility ≠ ephemeral) :
    replyInner interaction state payload ephemeral = .error .responseVisibilityMismatch := by
  subst hs
  simp [replyInner, ResponseState.replyAction, Ne.symm hne]

section Server

variable {S R : Type} {server : S → Request E → Option (S × R)} {view : S → Original} {shows : R → Option Bool}

theorem decide_refused {w : World S E R} {t : Nat} {call : Call E} {error : Error}
    (hpc : w.pc t = .holding call) (hd : call.decide interaction w.state = .error error) :
    ∃ w' error, step interaction server w (t, .decide) = some w' ∧ w'.pc t = .finished call (.error error) ∧
      w'.trace = w.trace := by
  refine ⟨w.goto t (.finished call (.error error)), error, ?_, Function.update_self _ _ _, rfl⟩
  simp only [step, hpc, hd]

/-- The step where a message helper decides: it is refused if no followup is let through. -/
theorem agreeing_iff_refuses (w : World S E R) (m : Nat × Move E) :
    Agreeing view w m ↔ Refuses interaction server view w m := by
  obtain ⟨t, move⟩ := m
  constructor
  · intro hg call hm hpc hconflict
    change move = .decide at hm
    change w.pc t = .holding call at hpc
    subst hm
    cases hconflict with
    | reply hs hne => exact decide_refused hpc (reply_refused hs hne)
    | @followup payload ephemeral visibility hs hne =>
      by_cases hp : w.state = .pending
      · have hd : Call.decide interaction (.followup payload ephemeral) w.state = .error .interactionNotAcknowledged := by
          rw [hp]; rfl
        exact decide_refused hpc hd
      · exact absurd (hg payload ephemeral visibility rfl hpc hp hs) hne
  · intro hr payload ephemeral visibility hm hpc hp hs
    by_contra hne
    obtain ⟨w', error, hstep, hpc', -⟩ := hr (.followup payload ephemeral) hm hpc (.followup hs hne)
    change move = .decide at hm
    change w.pc t = .holding (.followup payload ephemeral) at hpc
    change w'.pc t = _ at hpc'
    subst hm
    -- an acknowledged interaction lets every followup through
    have hd : Call.decide interaction (.followup payload ephemeral) w.state = .ok
        ⟨.createFollowupMessage interaction.applicationId interaction.token (payload.intoMessageData ephemeral),
          w.state⟩ := by
      cases hstate : w.state with
      | pending => exact absurd hstate hp
      | _ => rfl
    simp only [step, hpc, hd, Option.some.injEq] at hstep
    rw [← hstep] at hpc'
    simp [World.goto] at hpc'

/-- The condition is one on what the documentation speaks of. -/
theorem agreeing_seen (w : World S E R) (m : Nat × Move E) : Agreeing id (w.seen view shows) m ↔ Agreeing view w m := by
  have hpc : ∀ call : Call E, (w.seen view shows).pc m.1 = .holding call ↔ w.pc m.1 = .holding call := by
    intro call
    show (w.pc m.1).map shows = _ ↔ _
    cases w.pc m.1 <;> simp [Pc.map]
  unfold Agreeing
  simp only [hpc]
  exact Iff.rfl

/-- In every run of any number of clones, with any server that answers as documented: the
    helpers' visibilities are kept exactly if no `followup` is let through in a deferral of
    the other visibility. -/
theorem visibility_iff (hdocuments : Documents discord server view shows) {start : S} (hstart : view start = .none)
    {moves : List (Nat × Move E)} {w : World S E R}
    (h : run (step interaction server) (World.start start) moves = some w) :
    VisibilityKept interaction server view shows start moves w ↔
      Along (step interaction server) (Agreeing view) (World.start start) moves := by
  constructor
  · intro hk
    exact Lib.along_imp (fun w m => (agreeing_iff_refuses w m).mpr) hk.2
  · intro hg
    have hrun := run_seen hdocuments h
    have hseen := (along_map (step_seen hdocuments) (fun w m _ _ => agreeing_seen w m) h).mpr hg
    rw [hstart] at hrun
    change Along (step interaction discord) (Agreeing id) (World.start (view start)) moves at hseen
    rw [hstart] at hseen
    have hinv : LockInv interaction (w.seen view shows) ∧ VisibilityInv (w.seen view shows) :=
      run_along (I := fun w => LockInv interaction w ∧ VisibilityInv w)
        (fun _ _ _ hi hg hs => ⟨lock_moves hi.1 (step_moves hs), visibility_moves hi.1 hi.2 hg (step_moves hs)⟩)
        hrun hseen ⟨lock_start Original.none, visibility_start⟩
    refine ⟨fun t call response hreturned => ?_, Lib.along_imp (fun w m => (agreeing_iff_refuses w m).mp) hg⟩
    exact hinv.2.returned t call (shows response) (List.mem_map.mpr ⟨_, hreturned, rfl⟩)

end Server

/-- A deferral and a followup of its visibility: everything is shown as asked. -/
theorem visibility_iff_agreeing :
    let interaction : Interaction := ⟨1, 2, .applicationCommand, "token", none, none, none, none, .ok none⟩
    let moves : List (Nat × Move Unit) := [(0, .call (.defer true)), (0, .acquire), (0, .decide), (0, .send),
      (0, .land), (0, .answer), (0, .update), (0, .finish), (0, .call (.followup (.content "secret") true)),
      (0, .acquire), (0, .decide)]
    ∃ w, run (step interaction discord) (World.start .none) moves = some w ∧
      VisibilityKept interaction discord id id .none moves w := by
  intro interaction moves
  refine ⟨_, rfl, (visibility_iff discord_documents rfl rfl).mpr ?_⟩
  -- ten moves that are no followup's decision, and one that is
  iterate 10
    refine ⟨fun _ _ _ hm hpc => (by first | (cases hm; done) | cases hpc), fun s hs => ?_⟩
    obtain rfl := Option.some.inj hs
  exact ⟨fun _ _ _ _ hpc _ hs => (by cases hpc; cases hs; rfl), fun _ _ => trivial⟩

/-- A public deferral, then `followup_ephemeral`: it returns `Ok` and everybody sees it. -/
theorem followup_shows_secret :
    let interaction : Interaction := ⟨1, 2, .applicationCommand, "token", none, none, none, none, .ok none⟩
    let secret : Call Unit := Context.followupEphemeral "secret"
    let moves : List (Nat × Move Unit) := [(0, .call Context.defer), (0, .acquire), (0, .decide), (0, .send),
      (0, .land), (0, .answer), (0, .update), (0, .finish), (0, .call secret), (0, .acquire), (0, .decide),
      (0, .unlock), (0, .send), (0, .land), (0, .answer), (0, .update), (0, .finish)]
    ∃ w, run (step interaction discord) (World.start .none) moves = some w ∧
      .returned 0 secret (.ok (some false)) ∈ w.trace ∧ ¬ VisibilityKept interaction discord id id .none moves w := by
  intro interaction secret moves
  have hshown : ∃ w, run (step interaction discord) (World.start .none) moves = some w ∧
      .returned 0 secret (.ok (some false)) ∈ w.trace := by
    refine ⟨_, rfl, ?_⟩
    exact List.mem_append_right _ (List.mem_singleton_self _)
  obtain ⟨w, hr, hm⟩ := hshown
  exact ⟨w, hr, hm, fun hk => absurd (hk.1 0 secret (some false) hm true rfl) (by decide)⟩

end GloamCommands.Response
