/-
  GloamCommands.Response.State — response helpers and the acknowledgement state
  (crates/gloam-commands/src/response.rs).

  A helper locks the state that all clones of a context share, reads it, and either
  returns an error or has a `Plan`: the request it sends, and what the state becomes if
  the request succeeds. `replyInner`, `deferInner`, `editResponseInner`, `deleteResponse`
  and `followupInner` are the source's functions up to their request; when the lock is
  released and how requests of several helpers interleave is in `Response.Machine`.
  `E` is the type of embeds.
-/

import GloamCommands.Core.Command

namespace GloamCommands.Response

variable {E : Type}

inductive ResponseState where
  | pending
  | deferred (ephemeral : Bool)
  | responded
  | deleted
  deriving DecidableEq, Repr

inductive ReplyAction where
  | initial (ephemeral : Bool)
  | completeDeferred
  | followup (ephemeral : Bool)
  deriving DecidableEq, Repr

/-! ## Requests -/

abbrev MessageFlags := BitVec 64

def MessageFlags.ephemeral : MessageFlags := 64

structure InteractionMessageData (E : Type) where
  content : Option String := none
  embeds : List E := []
  flags : Option MessageFlags := none
  deriving DecidableEq, Repr

/-- An edit: an absent field keeps what the message has. -/
structure EditWebhookMessage (E : Type) where
  content : Option (Option String) := none
  embeds : Option (Option (List E)) := none
  deriving DecidableEq, Repr

inductive InteractionCallbackType where
  | channelMessageWithSource
  | deferredChannelMessageWithSource
  deriving DecidableEq, Repr

structure InteractionResponse (E : Type) where
  kind : InteractionCallbackType
  data : Option (InteractionMessageData E)
  deriving DecidableEq, Repr

inductive Request (E : Type) where
  | createInteractionResponse (interaction : Nat) (token : String) (response : InteractionResponse E)
  | editOriginalInteractionResponse (application : ApplicationId) (token : String) (edit : EditWebhookMessage E)
  | deleteOriginalInteractionResponse (application : ApplicationId) (token : String)
  | createFollowupMessage (application : ApplicationId) (token : String) (data : InteractionMessageData E)
  deriving DecidableEq, Repr

namespace Request

def isCreate : Request E → Bool
  | createInteractionResponse .. => true
  | _ => false

def isEdit : Request E → Bool
  | editOriginalInteractionResponse .. => true
  | _ => false

def isDelete : Request E → Bool
  | deleteOriginalInteractionResponse .. => true
  | _ => false

end Request

inductive MessagePayload (E : Type) where
  | content (text : String)
  | embeds (items : List E)
  deriving DecidableEq, Repr

namespace MessagePayload

def intoMessageData (payload : MessagePayload E) (ephemeral : Bool) : InteractionMessageData E :=
  let data : InteractionMessageData E :=
    match payload with
    | content text => { content := some text }
    | embeds items => { embeds := items }
  if ephemeral then { data with flags := some MessageFlags.ephemeral } else data

def intoEdit : MessagePayload E → EditWebhookMessage E
  | content text => { content := some (some text) }
  | embeds items => { embeds := some (some items) }

end MessagePayload

/-! ## Decisions under the lock -/

namespace ResponseState

def replyAction (state : ResponseState) (ephemeral : Bool) : Except Error ReplyAction :=
  match state with
  | pending => .ok (.initial ephemeral)
  | deferred deferredEphemeral =>
    if ephemeral != deferredEphemeral then .error .responseVisibilityMismatch else .ok .completeDeferred
  | responded => .ok (.followup ephemeral)
  | deleted => .ok (.followup ephemeral)

def isAcknowledged : ResponseState → Bool
  | pending => false
  | _ => true

end ResponseState

structure Plan (E : Type) where
  request : Request E
  next : ResponseState
  deriving DecidableEq, Repr

variable (interaction : Interaction)

def replyInner (state : ResponseState) (payload : MessagePayload E) (ephemeral : Bool) : Except Error (Plan E) :=
  match state.replyAction ephemeral with
  | .error error => .error error
  | .ok (.initial ephemeral) =>
    let response := ⟨.channelMessageWithSource, some (payload.intoMessageData ephemeral)⟩
    .ok ⟨.createInteractionResponse interaction.id interaction.token response, .responded⟩
  | .ok .completeDeferred =>
    .ok ⟨.editOriginalInteractionResponse interaction.applicationId interaction.token payload.intoEdit, .responded⟩
  | .ok (.followup ephemeral) =>
    let data := payload.intoMessageData ephemeral
    .ok ⟨.createFollowupMessage interaction.applicationId interaction.token data, state⟩

def deferInner (state : ResponseState) (ephemeral : Bool) : Except Error (Plan E) :=
  if state != .pending then .error .interactionAlreadyAcknowledged
  else
    let data : Option (InteractionMessageData E) :=
      if ephemeral then some { flags := some MessageFlags.ephemeral } else none
    .ok ⟨.createInteractionResponse interaction.id interaction.token ⟨.deferredChannelMessageWithSource, data⟩,
      .deferred ephemeral⟩

def editResponseInner (state : ResponseState) (payload : MessagePayload E) : Except Error (Plan E) :=
  let edit := .editOriginalInteractionResponse interaction.applicationId interaction.token payload.intoEdit
  match state with
  | .pending => .error .interactionNotAcknowledged
  | .deleted => .error .originalResponseDeleted
  | .deferred _ => .ok ⟨edit, .responded⟩
  | .responded => .ok ⟨edit, .responded⟩

def deleteResponse (state : ResponseState) : Except Error (Plan E) :=
  match state with
  | .pending => .error .interactionNotAcknowledged
  | .deleted => .error .originalResponseDeleted
  | _ => .ok ⟨.deleteOriginalInteractionResponse interaction.applicationId interaction.token, .deleted⟩

/-- The one helper that has given the lock back when it sends its request. -/
def followupInner (state : ResponseState) (payload : MessagePayload E) (ephemeral : Bool) : Except Error (Plan E) :=
  if !state.isAcknowledged then .error .interactionNotAcknowledged
  else
    let data := payload.intoMessageData ephemeral
    .ok ⟨.createFollowupMessage interaction.applicationId interaction.token data, state⟩

/-! ## Calls -/

inductive Call (E : Type) where
  | reply (payload : MessagePayload E) (ephemeral : Bool)
  | defer (ephemeral : Bool)
  | editResponse (payload : MessagePayload E)
  | deleteResponse
  | followup (payload : MessagePayload E) (ephemeral : Bool)
  deriving DecidableEq, Repr

namespace Context

def reply (content : String) : Call E := .reply (.content content) false
def replyEmbeds (embeds : List E) : Call E := .reply (.embeds embeds) false
def replyEmbed (embed : E) : Call E := replyEmbeds [embed]
def replyEphemeral (content : String) : Call E := .reply (.content content) true
def replyEphemeralEmbeds (embeds : List E) : Call E := .reply (.embeds embeds) true
def replyEphemeralEmbed (embed : E) : Call E := replyEphemeralEmbeds [embed]
def defer : Call E := .defer false
def deferEphemeral : Call E := .defer true
def editResponse (content : String) : Call E := .editResponse (.content content)
def editResponseEmbeds (embeds : List E) : Call E := .editResponse (.embeds embeds)
def editResponseEmbed (embed : E) : Call E := editResponseEmbeds [embed]
def followup (content : String) : Call E := .followup (.content content) false
def followupEmbeds (embeds : List E) : Call E := .followup (.embeds embeds) false
def followupEmbed (embed : E) : Call E := followupEmbeds [embed]
def followupEphemeral (content : String) : Call E := .followup (.content content) true
def followupEphemeralEmbeds (embeds : List E) : Call E := .followup (.embeds embeds) true
def followupEphemeralEmbed (embed : E) : Call E := followupEphemeralEmbeds [embed]

end Context

namespace Call

/-- What the call does with the state it reads under the lock. -/
def decide (call : Call E) (state : ResponseState) : Except Error (Plan E) :=
  match call with
  | reply payload ephemeral => replyInner interaction state payload ephemeral
  | defer ephemeral => deferInner interaction state ephemeral
  | editResponse payload => editResponseInner interaction state payload
  | deleteResponse => Response.deleteResponse interaction state
  | followup payload ephemeral => followupInner interaction state payload ephemeral

/-- The call does not hold the lock across its request. -/
def unlocks : Call E → Bool
  | followup .. => true
  | _ => false

def requested : Call E → Option Bool
  | reply _ ephemeral => some ephemeral
  | followup _ ephemeral => some ephemeral
  | _ => none

end Call

/-! ## What a plan can be -/

/-- Every plan a call makes, by the state it reads. -/
inductive Planned : Call E → ResponseState → Plan E → Prop
  | initial (payload : MessagePayload E) (ephemeral : Bool) :
      Planned (.reply payload ephemeral) .pending
        ⟨.createInteractionResponse interaction.id interaction.token
          ⟨.channelMessageWithSource, some (payload.intoMessageData ephemeral)⟩, .responded⟩
  | deferral (ephemeral : Bool) :
      Planned (.defer ephemeral) .pending
        ⟨.createInteractionResponse interaction.id interaction.token
          ⟨.deferredChannelMessageWithSource,
            if ephemeral then some { flags := some MessageFlags.ephemeral } else none⟩, .deferred ephemeral⟩
  | complete (payload : MessagePayload E) (ephemeral : Bool) :
      Planned (.reply payload ephemeral) (.deferred ephemeral)
        ⟨.editOriginalInteractionResponse interaction.applicationId interaction.token payload.intoEdit, .responded⟩
  | later (payload : MessagePayload E) (ephemeral : Bool) {state : ResponseState} :
      state = .responded ∨ state = .deleted →
      Planned (.reply payload ephemeral) state
        ⟨.createFollowupMessage interaction.applicationId interaction.token (payload.intoMessageData ephemeral), state⟩
  | edit (payload : MessagePayload E) {state : ResponseState} : state ≠ .pending → state ≠ .deleted →
      Planned (.editResponse payload) state
        ⟨.editOriginalInteractionResponse interaction.applicationId interaction.token payload.intoEdit, .responded⟩
  | delete {state : ResponseState} : state ≠ .pending → state ≠ .deleted →
      Planned .deleteResponse state
        ⟨.deleteOriginalInteractionResponse interaction.applicationId interaction.token, .deleted⟩
  | followup (payload : MessagePayload E) (ephemeral : Bool) {state : ResponseState} : state ≠ .pending →
      Planned (.followup payload ephemeral) state
        ⟨.createFollowupMessage interaction.applicationId interaction.token (payload.intoMessageData ephemeral), state⟩

variable {interaction}

theorem decide_planned {call : Call E} {state : ResponseState} {plan : Plan E}
    (h : call.decide interaction state = .ok plan) : Planned interaction call state plan := by
  cases call with
  | reply payload ephemeral =>
    cases state with
    | pending => cases h; exact .initial payload ephemeral
    | deferred visibility =>
      have hv : ephemeral = visibility := by
        by_contra hne
        simp [Call.decide, replyInner, ResponseState.replyAction, hne] at h
      subst hv
      simp only [Call.decide, replyInner, ResponseState.replyAction, bne_self_eq_false, Bool.false_eq_true,
        if_false, Except.ok.injEq] at h
      subst h
      exact .complete payload ephemeral
    | responded => cases h; exact .later payload ephemeral (.inl rfl)
    | deleted => cases h; exact .later payload ephemeral (.inr rfl)
  | defer ephemeral =>
    cases state with
    | pending => cases h; exact .deferral ephemeral
    | deferred _ => cases h
    | responded => cases h
    | deleted => cases h
  | editResponse payload =>
    cases state with
    | pending => cases h
    | deferred _ => cases h; exact .edit payload (by simp) (by simp)
    | responded => cases h; exact .edit payload (by simp) (by simp)
    | deleted => cases h
  | deleteResponse =>
    cases state with
    | pending => cases h
    | deferred _ => cases h; exact .delete (by simp) (by simp)
    | responded => cases h; exact .delete (by simp) (by simp)
    | deleted => cases h
  | followup payload ephemeral =>
    cases state with
    | pending => cases h
    | deferred _ => cases h; exact .followup payload ephemeral (by simp)
    | responded => cases h; exact .followup payload ephemeral (by simp)
    | deleted => cases h; exact .followup payload ephemeral (by simp)

end GloamCommands.Response
