/-
  GloamCommands.Response.Conversation — the helpers of a context as a conversation.

  What the helpers are for: `reply` and `followup` say something, in a message of its own.
  The first thing said is the original response, and `edit_response` and
  `delete_response` are about that one. `Channel.perform` says so call by call, with no
  state shared and nothing to lock.

  Discord is documented as in `Response.Visibility`, now with the messages it shows
  (`chat`, `chat_view`); a deferral is answered by an edit of it or by the first followup.
  The server of a run is any that answers accordingly.
  - `landing_performs`: a request does what its call is for, unless it is a `reply` that
    completes a deferral and finds it answered: that overwrites what has answered it.
  - `conversation_iff`: so a run is a conversation, in the order in which the requests
    land, exactly if no `reply` lands so.
-/

import GloamCommands.Lib.Refine
import GloamCommands.Response.Visibility

namespace GloamCommands.Response

open Lib (run run_observed refines_iff observed observed_map Along along_map)

variable {E ρ : Type} {interaction : Interaction}

/-! ## Discord, with the messages -/

structure Message (E : Type) where
  content : Option String
  embeds : List E
  ephemeral : Bool
  deriving DecidableEq, Repr

inductive OriginalResponse (E : Type) where
  | none
  | deferral (ephemeral : Bool)
  | message (message : Message E)
  | deleted
  deriving DecidableEq, Repr

/-- What users see of an interaction. -/
structure Channel (E : Type) where
  original : OriginalResponse E
  followups : List (Message E)
  deriving DecidableEq, Repr

def Channel.empty : Channel E := ⟨.none, []⟩

def InteractionMessageData.message (data : InteractionMessageData E) : Message E :=
  ⟨data.content, data.embeds, data.isEphemeral⟩

def EditWebhookMessage.apply (edit : EditWebhookMessage E) (message : Message E) : Message E :=
  { message with
    content := edit.content.getD message.content
    embeds := (edit.embeds.map (·.getD [])).getD message.embeds }

/-- What Discord makes of a request, and the message that shows its payload; `none` if it
    refuses. -/
def chat (channel : Channel E) (request : Request E) : Option (Channel E × Option (Message E)) :=
  match request, channel.original with
  | .createInteractionResponse _ _ response, .none =>
    let data := response.data.getD {}
    match response.kind with
    | .channelMessageWithSource => some ({ channel with original := .message data.message }, some data.message)
    | .deferredChannelMessageWithSource => some ({ channel with original := .deferral data.isEphemeral }, none)
  | .editOriginalInteractionResponse _ _ edit, .deferral ephemeral =>
    let message := edit.apply ⟨none, [], ephemeral⟩
    some ({ channel with original := .message message }, some message)
  | .editOriginalInteractionResponse _ _ edit, .message message =>
    some ({ channel with original := .message (edit.apply message) }, some (edit.apply message))
  | .deleteOriginalInteractionResponse .., .deferral _ => some ({ channel with original := .deleted }, none)
  | .deleteOriginalInteractionResponse .., .message _ => some ({ channel with original := .deleted }, none)
  -- the deferred message is still unanswered: the followup answers it
  | .createFollowupMessage _ _ data, .deferral ephemeral =>
    let message := { data.message with ephemeral := ephemeral }
    some ({ channel with original := .message message }, some message)
  | .createFollowupMessage _ _ data, .message _ =>
    some ({ channel with followups := channel.followups ++ [data.message] }, some data.message)
  | .createFollowupMessage _ _ data, .deleted =>
    some ({ channel with followups := channel.followups ++ [data.message] }, some data.message)
  | _, _ => none

theorem chat_documents : Documents (chat (E := E)) chat id id := fun _ _ _ _ h => h

def OriginalResponse.view : OriginalResponse E → Original
  | none => .none
  | deferral ephemeral => .deferral ephemeral
  | message shown => .message shown.ephemeral
  | deleted => .deleted

theorem chat_view {channel channel' : Channel E} {request : Request E} {shown : Option (Message E)}
    (h : chat channel request = some (channel', shown)) :
    discord channel.original.view request = some (channel'.original.view, shown.map (·.ephemeral)) := by
  obtain ⟨original, followups⟩ := channel
  cases request with
  | createInteractionResponse interaction token response =>
    obtain ⟨kind, data⟩ := response
    cases original with
    | none => cases kind <;> cases data <;> (cases h; rfl)
    | _ => cases h
  | editOriginalInteractionResponse => cases original <;> cases h <;> rfl
  | deleteOriginalInteractionResponse => cases original <;> cases h <;> rfl
  | createFollowupMessage => cases original <;> cases h <;> rfl

/-! ## What the calls are for -/

def MessagePayload.shown (payload : MessagePayload E) (ephemeral : Bool) : Message E :=
  match payload with
  | content text => ⟨some text, [], ephemeral⟩
  | embeds items => ⟨none, items, ephemeral⟩

def Message.rewrite (message : Message E) : MessagePayload E → Message E
  | .content text => { message with content := some text }
  | .embeds items => { message with embeds := items }

def Channel.opening (channel : Channel E) (message : Message E) : Channel E × Option (Message E) :=
  ({ channel with original := .message message }, some message)

def Channel.adding (channel : Channel E) (message : Message E) : Channel E × Option (Message E) :=
  ({ channel with followups := channel.followups ++ [message] }, some message)

/-- A conversation, call by call, and the message that shows the call's payload. What is
    said first after a deferral answers it; where there is nothing to follow, to edit or
    to delete, nothing happens. -/
def Channel.perform (channel : Channel E) : Call E → Channel E × Option (Message E)
  | .reply payload ephemeral =>
    match channel.original with
    | .none => channel.opening (payload.shown ephemeral)
    | .deferral _ => channel.opening (payload.shown ephemeral)
    | _ => channel.adding (payload.shown ephemeral)
  | .defer ephemeral =>
    match channel.original with
    | .none => ({ channel with original := .deferral ephemeral }, none)
    | _ => (channel, none)
  | .editResponse payload =>
    match channel.original with
    | .deferral ephemeral => channel.opening (payload.shown ephemeral)
    | .message message => channel.opening (message.rewrite payload)
    | _ => (channel, none)
  | .deleteResponse =>
    match channel.original with
    | .none => (channel, none)
    | _ => ({ channel with original := .deleted }, none)
  | .followup payload ephemeral =>
    match channel.original with
    | .none => (channel, none)
    | .deferral visibility => channel.opening (payload.shown visibility)
    | _ => channel.adding (payload.shown ephemeral)

def Channel.step [DecidableEq E] (channel : Channel E) (turn : Nat × Call E × Option (Message E)) : Option (Channel E) :=
  if (channel.perform turn.2.1).2 = turn.2.2 then some (channel.perform turn.2.1).1 else none

theorem run_performs [DecidableEq E] {channel channel' : Channel E} {t : Nat} {call : Call E} {shown : Option (Message E)}
    (h : channel.perform call = (channel', shown)) : run Channel.step channel [(t, call, shown)] = some channel' := by
  simp [run, Channel.step, h]

theorem performed_of_run [DecidableEq E] {channel channel' : Channel E} {t : Nat} {call : Call E}
    {shown : Option (Message E)} (h : run Channel.step channel [(t, call, shown)] = some channel') :
    (channel.perform call).1 = channel' := by
  obtain ⟨next, hstep, hrest⟩ := Lib.run_cons h
  cases hrest
  unfold Channel.step at hstep
  split at hstep
  · exact Option.some.inj hstep
  · cases hstep

theorem message_intoMessageData (payload : MessagePayload E) (ephemeral : Bool) :
    (payload.intoMessageData ephemeral).message = payload.shown ephemeral := by
  cases payload <;> cases ephemeral <;> rfl

theorem intoEdit_apply (payload : MessagePayload E) (message : Message E) :
    payload.intoEdit.apply message = message.rewrite payload := by
  cases payload <;> rfl

theorem rewrite_blank (payload : MessagePayload E) (ephemeral : Bool) :
    (⟨none, [], ephemeral⟩ : Message E).rewrite payload = payload.shown ephemeral := by
  cases payload <;> rfl

/-! ## The state and Discord's view -/

/-- A followup is a message of its own, or answers the deferral. -/
theorem followup_lands {original original' : Original} {shown : Option Bool} {application : ApplicationId} {token : String}
    {data : InteractionMessageData E}
    (h : discord original (.createFollowupMessage application token data) = some (original', shown)) :
    original' = original ∨ ∃ v, original = .deferral v ∧ original' = .message v := by
  cases original with
  | none => cases h
  | deferral v =>
    cases h
    exact .inr ⟨v, rfl, rfl⟩
  | message v =>
    cases h
    exact .inl rfl
  | deleted =>
    cases h
    exact .inl rfl

/-- What lands keeps the state in step with Discord, and what will be recorded. -/
theorem planned_tracks {call : Call E} {state : ResponseState} {plan : Plan E} {original original' : Original}
    {shown : Option Bool} (hp : Planned interaction call state plan) (ht : Tracks state original)
    (h : discord original plan.request = some (original', shown)) :
    Tracks state original' ∧ Tracks plan.next original' := by
  cases hu : call.unlocks with
  | false =>
    refine (land_planned hp ht (fun payload ephemeral hcall => ?_) h).2
    rw [hcall] at hu
    cases hu
  | true =>
    cases hp with
    | followup =>
      have hanswered := tracks_answered ht (followup_lands h)
      exact ⟨hanswered, hanswered⟩
    | _ => cases hu

structure ChatInv (w : World (Channel E) E (Option (Message E))) : Prop where
  tracks : Tracks w.state w.server.original.view
  next : ∀ t call plan, (w.pc t).success = some (call, plan) → (w.pc t).holds = true →
    Tracks plan.next w.server.original.view

theorem chat_start : ChatInv (World.start Channel.empty : World (Channel E) E (Option (Message E))) :=
  ⟨trivial, fun _ _ _ h => by cases h⟩

theorem ChatInv.goto {w w' : World (Channel E) E (Option (Message E))} {t : Nat} {p : Pc E (Option (Message E))}
    (hv : ChatInv w) (hpc : w'.pc = Function.update w.pc t p) (hserver : w'.server = w.server)
    (hstate : Tracks w'.state w.server.original.view)
    (hnext : ∀ call plan, p.success = some (call, plan) → p.holds = true → Tracks plan.next w.server.original.view) :
    ChatInv w' := by
  refine ⟨by rw [hserver]; exact hstate, fun u call plan h hh => ?_⟩
  rw [hserver]
  by_cases hu : u = t
  · subst hu
    rw [hpc, Function.update_self] at h hh
    exact hnext call plan h hh
  · rw [hpc, Function.update_of_ne hu] at h hh
    exact hv.next u call plan h hh

theorem chat_moves {w w' : World (Channel E) E (Option (Message E))} {m : Nat × Move E} (hl : LockInv interaction w)
    (hv : ChatInv w) (h : Moves interaction chat w m w') : ChatInv w' := by
  cases h with
  | call => exact hv.goto rfl rfl hv.tracks fun _ _ h => by cases h
  | acquire => exact hv.goto rfl rfl hv.tracks fun _ _ h => by cases h
  | refuse => exact hv.goto rfl rfl hv.tracks fun _ _ h => by cases h
  | plan => exact hv.goto rfl rfl hv.tracks fun _ _ h => by cases h
  | unlock => exact hv.goto rfl rfl hv.tracks fun _ _ h => by cases h
  | send => exact hv.goto rfl rfl hv.tracks fun _ _ h => by cases h
  | fail => exact hv.goto rfl rfl hv.tracks fun _ _ h => by cases h
  | finish => exact hv.goto rfl rfl hv.tracks fun _ _ h => by cases h
  | @answer t call plan shown hpc =>
    refine hv.goto rfl rfl hv.tracks fun c p h hh => ?_
    cases h
    exact hv.next t call plan (by rw [hpc]; rfl) (by rw [hpc]; exact hh)
  | @settle t call plan outcome hpc =>
    exact hv.goto rfl rfl hv.tracks fun _ _ h => by cases h
  | @record t call plan shown hpc hu =>
    have hnext := hv.next t call plan (by rw [hpc]; rfl) (by rw [hpc]; simp [Pc.holds, hu])
    exact hv.goto rfl rfl hnext fun _ _ h => by cases h
  | @land t call plan channel shown hpc hchat =>
    have hview := chat_view hchat
    obtain ⟨state, hp, hcur, -⟩ := hl.fresh t call plan (by rw [hpc]; rfl)
    cases hu : call.unlocks with
    | false =>
      have hcur := hcur (by rw [hpc]; simp [Pc.holds, hu])
      subst hcur
      obtain ⟨ht, hn⟩ := planned_tracks hp hv.tracks hview
      refine ⟨ht, fun u c p h hh => ?_⟩
      change (Function.update w.pc t (.landed call plan shown) u).success = _ at h
      change (Function.update w.pc t (.landed call plan shown) u).holds = _ at hh
      by_cases hut : u = t
      · subst hut
        rw [Function.update_self] at h
        cases h
        exact hn
      · -- both would have the lock
        rw [Function.update_of_ne hut] at hh
        have ho : w.owner = some t := hl.owned t (by rw [hpc]; simp [Pc.holds, hu])
        have hu' := hl.owned u hh
        rw [ho] at hu'
        exact absurd (Option.some.inj hu').symm hut
    | true =>
      obtain ⟨-, application, token, data, hr⟩ := hp.unlocks hu
      rw [hr] at hview
      have hanswered := followup_lands hview
      refine ⟨tracks_answered hv.tracks hanswered, fun u c p h hh => ?_⟩
      change (Function.update w.pc t (.landed call plan shown) u).success = _ at h
      change (Function.update w.pc t (.landed call plan shown) u).holds = _ at hh
      by_cases hut : u = t
      · subst hut
        rw [Function.update_self] at hh
        simp [Pc.holds, hu] at hh
      · rw [Function.update_of_ne hut] at h hh
        exact tracks_answered (hv.next u c p h hh) hanswered

/-! ## What a landing does -/

/-- The `reply` that lands does not complete a deferral that has been answered. -/
def Unanswered {S R : Type} (view : S → Channel E) (w : World S E R) (m : Nat × Move E) : Prop :=
  ∀ payload ephemeral plan message, m.2 = .land → w.pc m.1 = .inFlight (.reply payload ephemeral) plan →
    plan.request.isEdit = true → (view w.server).original ≠ .message message

theorem not_unanswered {w : World (Channel E) E (Option (Message E))} {t : Nat} {call : Call E} {plan : Plan E}
    (hpc : w.pc t = .inFlight call plan) (h : ¬ Unanswered id w (t, .land)) :
    ∃ payload ephemeral message, call = .reply payload ephemeral ∧ plan.request.isEdit = true ∧
      w.server.original = .message message := by
  unfold Unanswered at h
  push Not at h
  obtain ⟨payload, ephemeral, plan', message, -, hpc', hedit, hmessage⟩ := h
  change w.pc t = _ at hpc'
  rw [hpc] at hpc'
  cases hpc'
  exact ⟨payload, ephemeral, message, rfl, hedit, hmessage⟩

/-- A deferral that is there to be answered has the visibility that the state has. -/
theorem tracks_deferral {ephemeral visibility : Bool} (h : Tracks (.deferred ephemeral) (.deferral visibility)) :
    visibility = ephemeral := by
  rcases h with h | h | h
  · exact Original.deferral.inj h
  · cases h
  · cases h

theorem landing_performs {w : World (Channel E) E (Option (Message E))} (hl : LockInv interaction w) (hv : ChatInv w)
    {t : Nat} {call : Call E} {plan : Plan E} {channel : Channel E} {shown : Option (Message E)}
    (hpc : w.pc t = .inFlight call plan) (h : chat w.server plan.request = some (channel, shown))
    (hg : Unanswered id w (t, .land)) : w.server.perform call = (channel, shown) := by
  obtain ⟨state, hp, hcur, -⟩ := hl.fresh t call plan (by rw [hpc]; rfl)
  have ht : call.unlocks = false → Tracks state w.server.original.view := fun hu => by
    rw [hcur (by rw [hpc]; simp [Pc.holds, hu])]
    exact hv.tracks
  have hfree : ∀ payload ephemeral, call = .reply payload ephemeral → plan.request.isEdit = true →
      ∀ message, w.server.original ≠ .message message :=
    fun payload ephemeral hcall hedit message => hg payload ephemeral plan message rfl (hcall ▸ hpc) hedit
  rcases hserver : w.server with ⟨original, followups⟩
  rw [hserver] at h ht hfree
  cases hp with
  | initial payload ephemeral =>
    cases original with
    | none =>
      simp only [chat, Option.getD_some, message_intoMessageData, Option.some.injEq] at h
      exact h
    | _ => cases h
  | deferral ephemeral =>
    cases original with
    | none =>
      cases ephemeral
      · exact Option.some.inj h
      · exact Option.some.inj h
    | _ => cases h
  | complete payload ephemeral =>
    cases original with
    | deferral visibility =>
      obtain rfl := tracks_deferral (ht rfl)
      simp only [chat, intoEdit_apply, rewrite_blank, Option.some.injEq] at h
      exact h
    | message message => exact absurd rfl (hfree payload ephemeral rfl rfl message)
    | _ => cases h
  | later payload ephemeral hs =>
    cases original with
    | none => cases h
    | deferral visibility =>
      obtain ⟨-, hopen⟩ := open_of_tracks (ht rfl) hs (!visibility)
      exact absurd (hopen visibility rfl) (by simp)
    | _ =>
      simp only [chat, message_intoMessageData, Option.some.injEq] at h
      exact h
  | edit payload =>
    cases original with
    | deferral visibility =>
      simp only [chat, intoEdit_apply, rewrite_blank, Option.some.injEq] at h
      exact h
    | message message =>
      simp only [chat, intoEdit_apply, Option.some.injEq] at h
      exact h
    | _ => cases h
  | delete =>
    cases original with
    | deferral => exact Option.some.inj h
    | message => exact Option.some.inj h
    | _ => cases h
  | followup payload ephemeral =>
    cases original with
    | none => cases h
    | deferral visibility =>
      have hm : { payload.shown ephemeral with ephemeral := visibility } = payload.shown visibility := by
        cases payload <;> rfl
      simp only [chat, message_intoMessageData, hm, Option.some.injEq] at h
      exact h
    | _ =>
      simp only [chat, message_intoMessageData, Option.some.injEq] at h
      exact h

/-- A `reply` that completes a deferral and finds it answered overwrites the answer. -/
theorem landing_overwrites {w : World (Channel E) E (Option (Message E))} (hl : LockInv interaction w) {t : Nat}
    {payload : MessagePayload E} {ephemeral : Bool} {plan : Plan E} {message : Message E} {channel : Channel E}
    {shown : Option (Message E)} (hpc : w.pc t = .inFlight (.reply payload ephemeral) plan)
    (hedit : plan.request.isEdit = true) (hmessage : w.server.original = .message message)
    (h : chat w.server plan.request = some (channel, shown)) :
    channel = (w.server.opening (message.rewrite payload)).1 := by
  obtain ⟨state, hp, -, -⟩ := hl.fresh t _ plan (by rw [hpc]; rfl)
  cases hp with
  | complete =>
    simp only [chat, hmessage, intoEdit_apply, Option.some.injEq, Prod.mk.injEq] at h
    exact h.1.symm
  | _ => cases hedit

/-! ## Falling behind -/

def Lags (channel : Channel E) (w : World (Channel E) E (Option (Message E))) : Prop :=
  channel.original.view = w.server.original.view ∧ w.server.followups.length < channel.followups.length

/-- A call's effect on the original, by its visibility, and the followups that it adds. -/
def Original.turn (original : Original) : Call E → Original × Nat
  | .reply _ ephemeral =>
    match original with
    | .none => (.message ephemeral, 0)
    | .deferral _ => (.message ephemeral, 0)
    | original => (original, 1)
  | .defer ephemeral =>
    match original with
    | .none => (.deferral ephemeral, 0)
    | original => (original, 0)
  | .editResponse _ =>
    match original with
    | .deferral ephemeral => (.message ephemeral, 0)
    | original => (original, 0)
  | .deleteResponse =>
    match original with
    | .none => (.none, 0)
    | _ => (.deleted, 0)
  | .followup _ _ =>
    match original with
    | .none => (.none, 0)
    | .deferral ephemeral => (.message ephemeral, 0)
    | original => (original, 1)

theorem perform_turn (channel : Channel E) (call : Call E) :
    (channel.perform call).1.original.view = (channel.original.view.turn call).1 ∧
      (channel.perform call).1.followups.length = channel.followups.length + (channel.original.view.turn call).2 := by
  obtain ⟨original, followups⟩ := channel
  have hadd : ∀ message : Message E, (followups ++ [message]).length = followups.length + 1 := fun _ =>
    List.length_append
  cases call with
  | reply payload => cases payload <;> cases original <;> first | exact ⟨rfl, rfl⟩ | exact ⟨rfl, hadd _⟩
  | defer => cases original <;> exact ⟨rfl, rfl⟩
  | editResponse payload => cases payload <;> cases original <;> exact ⟨rfl, rfl⟩
  | deleteResponse => cases original <;> exact ⟨rfl, rfl⟩
  | followup payload => cases payload <;> cases original <;> first | exact ⟨rfl, rfl⟩ | exact ⟨rfl, hadd _⟩

theorem performing_lags {w w' : World (Channel E) E (Option (Message E))} {channel : Channel E} {call : Call E}
    (h : Lags channel w) (hw : w'.server = (w.server.perform call).1) : Lags (channel.perform call).1 w' := by
  obtain ⟨hview, hlength⟩ := h
  obtain ⟨hturn, hadded⟩ := perform_turn channel call
  obtain ⟨hturn', hadded'⟩ := perform_turn w.server call
  unfold Lags
  rw [hw, hturn, hturn', hadded, hadded', hview]
  exact ⟨rfl, Nat.add_lt_add_right hlength _⟩

/-- A message that overwrites another instead of following it is missing from then on. -/
theorem overwriting_lags {w : World (Channel E) E (Option (Message E))} {channel : Channel E} {payload : MessagePayload E}
    {ephemeral : Bool} {message : Message E} (hmessage : w.server.original = .message message)
    (hview : channel.original.view = w.server.original.view)
    (hlength : w.server.followups.length ≤ channel.followups.length)
    {w' : World (Channel E) E (Option (Message E))} (hw : w'.server = (w.server.opening (message.rewrite payload)).1) :
    Lags (channel.perform (.reply payload ephemeral)).1 w' := by
  obtain ⟨hturn, hadded⟩ := perform_turn channel (.reply payload ephemeral)
  rw [hview, hmessage] at hturn hadded
  have hsame : (message.rewrite payload).ephemeral = message.ephemeral := by cases payload <;> rfl
  refine ⟨?_, ?_⟩
  · rw [hturn, hw]
    exact congrArg Original.message hsame.symm
  · rw [hadded, hw]
    exact Nat.lt_succ_of_le hlength

/-! ## The law -/

/-- What is seen of a move: a request that lands, with its call and the message it shows. -/
def landing {S R : Type} (server : S → Request E → Option (S × R)) (shows : R → Option (Message E)) (w : World S E R)
    (m : Nat × Move E) : List (Nat × Call E × Option (Message E)) :=
  match m.2, w.pc m.1 with
  | .land, .inFlight call plan => ((server w.server plan.request).map fun landed => (m.1, call, shows landed.2)).toList
  | _, _ => []

/-- A move that is no landing changes nothing that is shown. -/
theorem landing_or_quiet {w w' : World (Channel E) E (Option (Message E))} {m : Nat × Move E}
    (h : step interaction chat w m = some w') :
    (w'.server = w.server ∧ landing chat id w m = [] ∧ Unanswered id w m) ∨
      ∃ t call plan shown, m = (t, .land) ∧ w.pc t = .inFlight call plan ∧
        chat w.server plan.request = some (w'.server, shown) ∧ landing chat id w m = [(t, call, shown)] := by
  cases step_moves h with
  | @land t call plan channel shown hpc hchat =>
    refine .inr ⟨t, call, plan, shown, rfl, hpc, hchat, ?_⟩
    simp only [landing, hpc, hchat]
    rfl
  | _ => exact .inl ⟨rfl, rfl, fun _ _ _ _ hm => by cases hm⟩

/-- What the calls of a task have returned with, those that did not fail. -/
def returns {R : Type} (shows : R → ρ) (t : Nat) (trace : List (Event E R)) : List (Call E × ρ) :=
  trace.filterMap fun event =>
    match event with
    | .returned u call (.ok response) => if u = t then some (call, shows response) else none
    | _ => none

def ofTask (t : Nat) (landings : List (Nat × Call E × ρ)) : List (Call E × ρ) :=
  landings.filterMap fun turn => if turn.1 = t then some turn.2 else none

/-- Of every task, what has returned or is about to has landed, in that order. -/
def Returning (w : World (Channel E) E (Option (Message E))) (landings : List (Nat × Call E × Option (Message E))) : Prop :=
  ∀ t, (returns id t w.trace ++ (w.pc t).response.toList).Sublist (ofTask t landings)

/-- Task `t` moves to `p`, which adds `events` to the trace and `landed` to the landings. -/
theorem Returning.goto {w w' : World (Channel E) E (Option (Message E))} {t : Nat} {p : Pc E (Option (Message E))}
    {events : List (Event E (Option (Message E)))} {landings landed : List (Nat × Call E × Option (Message E))}
    (hr : Returning w landings) (hpc : w'.pc = Function.update w.pc t p) (htrace : w'.trace = w.trace ++ events)
    (hother : ∀ u, u ≠ t → returns id u events = [])
    (hself : (returns id t events ++ p.response.toList).Sublist ((w.pc t).response.toList ++ ofTask t landed)) :
    Returning w' (landings ++ landed) := by
  intro u
  rw [htrace, hpc]
  unfold returns ofTask
  rw [List.filterMap_append, List.filterMap_append, List.append_assoc]
  by_cases hu : u = t
  · subst hu
    rw [Function.update_self]
    refine (List.Sublist.append (.refl _) hself).trans ?_
    rw [← List.append_assoc]
    exact List.Sublist.append (hr u) (.refl _)
  · rw [Function.update_of_ne hu]
    have hnone : List.filterMap _ events = [] := hother u hu
    rw [hnone, List.nil_append]
    exact (hr u).trans (List.sublist_append_left _ _)

theorem Returning.quiet {w w' : World (Channel E) E (Option (Message E))} {t : Nat} {p : Pc E (Option (Message E))}
    {events : List (Event E (Option (Message E)))} {landings : List (Nat × Call E × Option (Message E))}
    (hr : Returning w landings) (hpc : w'.pc = Function.update w.pc t p) (htrace : w'.trace = w.trace ++ events)
    (hnone : ∀ u, returns id u events = []) (hself : p.response = none ∨ p.response = (w.pc t).response) :
    Returning w' (landings ++ []) := by
  refine hr.goto hpc htrace (fun u _ => hnone u) ?_
  rw [hnone, List.nil_append]
  rcases hself with hp | hp
  · rw [hp]
    exact List.nil_sublist _
  · rw [hp]
    exact List.sublist_append_left _ _

theorem returning_step {w w' : World (Channel E) E (Option (Message E))} {m : Nat × Move E}
    {landings : List (Nat × Call E × Option (Message E))} (hr : Returning w landings)
    (h : step interaction chat w m = some w') : Returning w' (landings ++ landing chat id w m) := by
  have hnone : w.trace = w.trace ++ [] := (List.append_nil _).symm
  cases step_moves h with
  | call => exact hr.quiet rfl hnone (fun _ => rfl) (.inl rfl)
  | acquire => exact hr.quiet rfl hnone (fun _ => rfl) (.inl rfl)
  | refuse => exact hr.quiet rfl hnone (fun _ => rfl) (.inl rfl)
  | plan => exact hr.quiet rfl hnone (fun _ => rfl) (.inl rfl)
  | unlock => exact hr.quiet rfl hnone (fun _ => rfl) (.inl rfl)
  | send => exact hr.quiet rfl rfl (fun _ => rfl) (.inl rfl)
  | answer hpc => exact hr.quiet rfl rfl (fun _ => rfl) (.inr (by rw [hpc]; rfl))
  | fail => exact hr.quiet rfl rfl (fun _ => rfl) (.inl rfl)
  | record hpc => exact hr.quiet rfl rfl (fun _ => rfl) (.inr (by rw [hpc]; rfl))
  | @settle t call plan outcome hpc =>
    refine hr.quiet rfl hnone (fun _ => rfl) (.inr ?_)
    rw [hpc]
    cases outcome <;> rfl
  | @finish t call outcome hpc =>
    have hlanding : landing chat id w (t, .finish) = [] := rfl
    rw [hlanding]
    cases outcome with
    | error => exact hr.quiet rfl rfl (fun _ => rfl) (.inl rfl)
    | ok shown =>
      refine hr.goto rfl rfl (fun u hu => ?_) ?_
      · simp [returns, Ne.symm hu]
      · rw [hpc]
        simp [returns, Pc.response, ofTask]
  | @land t call plan channel shown hpc hchat =>
    have hlanding : landing chat id w (t, .land) = [(t, call, shown)] := by
      simp only [landing, hpc, hchat]
      rfl
    rw [hlanding]
    refine hr.goto rfl rfl (fun _ _ => rfl) ?_
    rw [hpc]
    simp [returns, Pc.response, ofTask]

/-- The calls whose requests land are a conversation exactly if no `reply` overwrites. -/
theorem conversation_exact [DecidableEq E] {moves : List (Nat × Move E)} {w : World (Channel E) E (Option (Message E))}
    (h : run (step interaction chat) (World.start .empty) moves = some w) :
    run Channel.step .empty (observed (step interaction chat) (landing chat id) (World.start .empty) moves) = some w.server ↔
      Along (step interaction chat) (Unanswered id) (World.start .empty) moves := by
  refine @refines_iff _ _ _ _ _ Channel.step (landing chat id) World.server
    (fun w => LockInv interaction w ∧ ChatInv w) (Unanswered id) Lags ?_ ?_ ?_ ?_ ?_ moves _ w h ⟨lock_start _, chat_start⟩
  · rintro w m w' ⟨hl, hv⟩ hstep
    exact ⟨lock_moves hl (step_moves hstep), chat_moves hl hv (step_moves hstep)⟩
  · rintro w m w' ⟨hl, hv⟩ hg hstep
    rcases landing_or_quiet hstep with ⟨hserver, hlanding, -⟩ | ⟨t, call, plan, shown, rfl, hpc, hchat, hlanding⟩
    · rw [hlanding, hserver]
      rfl
    · rw [hlanding]
      exact run_performs (landing_performs hl hv hpc hchat hg)
  · rintro channel w m w' ⟨hl, hv⟩ hg hstep hrun
    rcases landing_or_quiet hstep with ⟨-, -, hquiet⟩ | ⟨t, call, plan, shown, rfl, hpc, hchat, hlanding⟩
    · exact absurd hquiet hg
    · rw [hlanding] at hrun
      obtain rfl := performed_of_run hrun
      obtain ⟨payload, ephemeral, message, rfl, hedit, hmessage⟩ := not_unanswered hpc hg
      exact overwriting_lags hmessage rfl (Nat.le_refl _) (landing_overwrites hl hpc hedit hmessage hchat)
  · rintro channel channel' w m w' ⟨hl, hv⟩ hlag hstep hrun
    rcases landing_or_quiet hstep with ⟨hserver, hlanding, -⟩ | ⟨t, call, plan, shown, rfl, hpc, hchat, hlanding⟩
    · rw [hlanding] at hrun
      cases hrun
      unfold Lags
      rw [hserver]
      exact hlag
    · rw [hlanding] at hrun
      obtain rfl := performed_of_run hrun
      by_cases hg : Unanswered id w (t, .land)
      · have hdone := landing_performs hl hv hpc hchat hg
        exact performing_lags hlag (by rw [hdone])
      · obtain ⟨payload, ephemeral, message, rfl, hedit, hmessage⟩ := not_unanswered hpc hg
        exact overwriting_lags hmessage hlag.1 (Nat.le_of_lt hlag.2) (landing_overwrites hl hpc hedit hmessage hchat)
  · intro w hlag
    exact Nat.lt_irrefl _ hlag.2

section Server

variable {S R : Type} {server : S → Request E → Option (S × R)} {view : S → Channel E} {shows : R → Option (Message E)}

theorem unanswered_seen (w : World S E R) (m : Nat × Move E) :
    Unanswered id (w.seen view shows) m ↔ Unanswered view w m := by
  have hpc : ∀ (call : Call E) (plan : Plan E),
      (w.seen view shows).pc m.1 = .inFlight call plan ↔ w.pc m.1 = .inFlight call plan := by
    intro call plan
    show (w.pc m.1).map shows = _ ↔ _
    cases w.pc m.1 <;> simp [Pc.map]
  unfold Unanswered
  simp only [hpc]
  exact Iff.rfl

theorem landing_seen (hdocuments : Documents chat server view shows) (w : World S E R) (m : Nat × Move E) (w' : World S E R)
    (h : step interaction server w m = some w') : landing chat id (w.seen view shows) m = landing server shows w m := by
  obtain ⟨t, move⟩ := m
  cases move with
  | land =>
    cases step_moves h with
    | land hpc hserver =>
      have hchat : chat (w.seen view shows).server _ = _ := hdocuments _ _ _ _ hserver
      simp only [landing, seen_pc hpc, Pc.map, hpc, hchat, hserver]
      rfl
  | _ => rfl

theorem returns_seen (t : Nat) (trace : List (Event E R)) :
    returns id t (trace.map (Event.map shows)) = returns shows t trace := by
  unfold returns
  rw [List.filterMap_map]
  refine List.filterMap_congr fun event _ => ?_
  cases event with
  | returned u call outcome => cases outcome <;> rfl
  | _ => rfl

/-- In every run of any number of clones, with requests that fail and answers that are
    lost, with any server that answers as documented: the calls whose requests landed, one
    after another in the order of landing, are a conversation that leads to what Discord
    shows, each with the message it was answered with, exactly if no `reply` completes a
    deferral that has been answered. And each task's calls that returned `Ok` have landed,
    once each and in their order. -/
theorem conversation_iff [DecidableEq E] (hdocuments : Documents chat server view shows) {start : S}
    (hstart : view start = .empty) {moves : List (Nat × Move E)} {w : World S E R}
    (h : run (step interaction server) (World.start start) moves = some w) :
    (run Channel.step .empty (observed (step interaction server) (landing server shows) (World.start start) moves) =
        some (view w.server) ↔ Along (step interaction server) (Unanswered view) (World.start start) moves) ∧
    ∀ t, (returns shows t w.trace).Sublist
      (ofTask t (observed (step interaction server) (landing server shows) (World.start start) moves)) := by
  have hrun := run_seen hdocuments h
  have halong := along_map (step_seen hdocuments) (fun w m _ _ => unanswered_seen w m) h
  have hlandings := observed_map (step_seen hdocuments) (landing_seen hdocuments) h
  change Along (step interaction chat) (Unanswered id) (World.start (view start)) moves ↔ _ at halong
  change observed (step interaction chat) (landing chat id) (World.start (view start)) moves = _ at hlandings
  rw [hstart] at hrun halong hlandings
  rw [← hlandings, ← halong]
  refine ⟨conversation_exact hrun, fun t => ?_⟩
  have hstart : Returning (World.start .empty : World (Channel E) E (Option (Message E))) [] := fun _ => .refl _
  have hreturning := @run_observed _ _ _ _ (landing chat id) Returning (fun _ _ _ _ hr hs => returning_step hr hs) _ _ _ _
    hrun hstart
  rw [List.nil_append] at hreturning
  rw [← returns_seen]
  exact (List.sublist_append_left _ _).trans (hreturning t)

end Server

/-- `defer`, `followup` and then `reply`, each of them `Ok`: the reply takes the place of
    what the followup has said. -/
theorem conversation_iff_overwritten :
    let interaction : Interaction := ⟨1, 2, .applicationCommand, "token", none, none, none, none, .ok none⟩
    let holding : List (Move Unit) := [.acquire, .decide, .send, .land, .answer, .update, .finish]
    let releasing : List (Move Unit) := [.acquire, .decide, .unlock, .send, .land, .answer, .update, .finish]
    let calls : List (Move Unit) := .call Context.defer :: holding ++ .call (Context.followup "first") :: releasing ++
      .call (Context.reply "second") :: holding
    let moves := calls.map fun move => (0, move)
    let second : Message Unit := ⟨some "second", [], false⟩
    ∃ w, run (step interaction chat) (World.start .empty) moves = some w ∧ w.server = ⟨.message second, []⟩ ∧
      returns id 0 w.trace = [(Context.defer, none), (Context.followup "first", some ⟨some "first", [], false⟩),
        (Context.reply "second", some second)] ∧
      ¬ Along (step interaction chat) (Unanswered id) (World.start .empty) moves := by
  intro interaction holding releasing calls moves second
  refine ⟨_, rfl, rfl, rfl, fun halong => ?_⟩
  have hrun := (conversation_iff chat_documents rfl rfl).1.mpr halong
  exact absurd (congrArg (Option.map Channel.followups) hrun) (by decide)

end GloamCommands.Response
