/-
  GloamCommands.Core.Command — command descriptors, the command tree, and what a
  handler is given (crates/gloam-commands/src/command.rs, policy.rs, context.rs,
  autocomplete.rs).

  `D` is the application state. A handler is an async function over shared state; here
  it maps its context and the state it starts in to its result and the state it leaves.
  The runtime state a policy owns in the source (its cooldown map and its semaphore) is
  not part of the tree: a leaf's cooldown map is in `Execution.Policy`, its permits are
  in `Dispatch.Permits`, both indexed by the leaf's path, as one policy belongs to one leaf.
-/

import GloamCommands.Core.Error
import GloamCommands.Lib.Float64

namespace GloamCommands

open Lib (F64)

/-! ## Discord values -/

/-- `ApplicationCommandOptionType`: the kinds the framework names, and any other code. -/
inductive ApplicationCommandOptionType where
  | subCommand
  | subCommandGroup
  | string
  | integer
  | boolean
  | user
  | channel
  | role
  | number
  | attachment
  | other (code : Nat)
  deriving DecidableEq, Repr

inductive ApplicationCommandNumericValue where
  | integer (value : Int)
  | number (value : F64)
  deriving DecidableEq, Repr

inductive ApplicationCommandInteractionValue where
  | string (value : String)
  | integer (value : Int)
  | number (value : F64)
  | boolean (value : Bool)
  deriving DecidableEq, Repr

structure ApplicationCommandInteractionDataOption where
  name : String
  kind : ApplicationCommandOptionType
  value : Option ApplicationCommandInteractionValue
  options : List ApplicationCommandInteractionDataOption
  focused : Option Bool

inductive ApplicationCommandType where
  | chatInput
  | other (code : Nat)
  deriving DecidableEq, Repr

structure ApplicationCommandInteractionData where
  name : String
  kind : ApplicationCommandType
  options : List ApplicationCommandInteractionDataOption

inductive InteractionType where
  | applicationCommand
  | applicationCommandAutocomplete
  | other (code : Nat)
  deriving DecidableEq, Repr

inductive InteractionContextType where
  | guild
  | botDm
  | privateChannel
  | other (code : Nat)
  deriving DecidableEq, Repr

abbrev UserId := Nat
abbrev ShardId := Nat
abbrev ApplicationId := Nat
abbrev GuildId := Nat

/-- Nanoseconds on the monotonic clock; a duration is a number of nanoseconds. -/
abbrev Instant := Nat
abbrev Duration := Nat

structure Member where
  user : Option UserId
  permissions : Option Permissions
  deriving DecidableEq, Repr

/-- The parts of an interaction the framework reads. `applicationCommandData` is the
    outcome of Gloamwire's accessor of that name. -/
structure Interaction where
  id : Nat
  applicationId : ApplicationId
  kind : InteractionType
  token : String
  context : Option InteractionContextType
  member : Option Member
  user : Option UserId
  appPermissions : Option Permissions
  applicationCommandData : Except Error (Option ApplicationCommandInteractionData)

/-! ## Handlers -/

structure Context where
  interaction : Interaction
  commandData : ApplicationCommandInteractionData
  commandPath : List String
  commandOptions : List ApplicationCommandInteractionDataOption
  shardId : Option ShardId

structure AutocompleteContext where
  interaction : Interaction
  commandData : ApplicationCommandInteractionData
  commandPath : List String
  commandOptions : List ApplicationCommandInteractionDataOption
  focusedIndex : Nat
  shardId : Option ShardId

inductive AutocompleteChoiceValue where
  | string (value : String)
  | integer (value : Int)
  | number (value : F64)
  deriving DecidableEq, Repr

structure AutocompleteChoice where
  name : String
  value : AutocompleteChoiceValue
  deriving DecidableEq, Repr

/-- An awaited future: a result, and the application state it leaves. -/
abbrev Future (D α : Type) := D → Except Error α × D

abbrev CommandFuture (D : Type) := Future D Unit

abbrev CommandHandler (D : Type) := Context → CommandFuture D
abbrev CommandHook (D : Type) := Context → CommandFuture D
abbrev CommandErrorHandler (D : Type) := Context → Error → CommandFuture D
abbrev CheckHandler (D : Type) := Context → Future D Bool
abbrev AutocompleteHandler (D : Type) := AutocompleteContext → Future D (List AutocompleteChoice)

/-! ## Descriptors -/

inductive CommandChoiceValue where
  | string (value : String)
  | integer (value : Int)
  | number (value : F64)
  deriving DecidableEq, Repr

structure CommandChoiceDescriptor where
  name : String
  value : CommandChoiceValue
  deriving DecidableEq, Repr

structure CommandOptionDescriptor where
  name : String
  description : String
  kind : ApplicationCommandOptionType
  required : Bool
  choices : List CommandChoiceDescriptor := []
  autocomplete : Bool := false
  minValue : Option ApplicationCommandNumericValue := none
  maxValue : Option ApplicationCommandNumericValue := none
  minLength : Option Nat := none
  maxLength : Option Nat := none
  deriving DecidableEq, Repr

structure CommandDescriptor where
  name : String
  description : String
  options : List CommandOptionDescriptor := []
  deriving DecidableEq, Repr

structure AutocompleteHandlerDescriptor (D : Type) where
  optionName : String
  handler : AutocompleteHandler D

structure CheckDescriptor (D : Type) where
  name : String
  handler : CheckHandler D

/-- The static part of a policy; `CommandPolicy::new()` is the value with every default. -/
structure CommandPolicy (D : Type) where
  checks : List (CheckDescriptor D) := []
  contexts : List InteractionContextType := []
  memberPermissions : Option Permissions := none
  botPermissions : Option Permissions := none
  cooldown : Option Duration := none
  maxConcurrency : Option Nat := none

/-- The permits the leaf's semaphore starts with: `max_concurrency` sets the limit and
    creates the semaphore together. -/
def CommandPolicy.commandSlots {D : Type} (policy : CommandPolicy D) : Option Nat := policy.maxConcurrency

/-! ## The command tree -/

structure SlashCommandLeaf (D : Type) where
  handler : CommandHandler D
  autocomplete : List (AutocompleteHandlerDescriptor D) := []
  policy : CommandPolicy D := {}

inductive SlashCommand (D : Type) where
  | leaf (descriptor : CommandDescriptor) (kind : SlashCommandLeaf D)
  | group (descriptor : CommandDescriptor) (children : List (SlashCommand D))

namespace SlashCommand

variable {D : Type}

def descriptor : SlashCommand D → CommandDescriptor
  | leaf descriptor _ => descriptor
  | group descriptor _ => descriptor

def handler : SlashCommand D → Option (CommandHandler D)
  | leaf _ kind => some kind.handler
  | group _ _ => none

def policy : SlashCommand D → Option (CommandPolicy D)
  | leaf _ kind => some kind.policy
  | group _ _ => none

def autocompleteHandlers : SlashCommand D → List (AutocompleteHandlerDescriptor D)
  | leaf _ kind => kind.autocomplete
  | group _ _ => []

def autocompleteHandler (command : SlashCommand D) (optionName : String) : Option (AutocompleteHandler D) :=
  match command with
  | leaf _ kind =>
    (kind.autocomplete.find? fun entry => entry.optionName == optionName).map (·.handler)
  | group _ _ => none

def children : SlashCommand D → List (SlashCommand D)
  | leaf _ _ => []
  | group _ children => children

def isLeaf : SlashCommand D → Bool
  | leaf _ _ => true
  | group _ _ => false

def isGroup : SlashCommand D → Bool
  | leaf _ _ => false
  | group _ _ => true

@[simp] theorem descriptor_leaf (d : CommandDescriptor) (k : SlashCommandLeaf D) : (leaf d k).descriptor = d := rfl
@[simp] theorem descriptor_group (d : CommandDescriptor) (c : List (SlashCommand D)) : (group d c).descriptor = d := rfl
@[simp] theorem isLeaf_leaf (d : CommandDescriptor) (k : SlashCommandLeaf D) : (leaf d k).isLeaf = true := rfl
@[simp] theorem isLeaf_group (d : CommandDescriptor) (c : List (SlashCommand D)) : (group d c).isLeaf = false := rfl
@[simp] theorem isGroup_leaf (d : CommandDescriptor) (k : SlashCommandLeaf D) : (leaf d k).isGroup = false := rfl
@[simp] theorem isGroup_group (d : CommandDescriptor) (c : List (SlashCommand D)) : (group d c).isGroup = true := rfl
@[simp] theorem children_leaf (d : CommandDescriptor) (k : SlashCommandLeaf D) : (leaf d k).children = [] := rfl
@[simp] theorem children_group (d : CommandDescriptor) (c : List (SlashCommand D)) : (group d c).children = c := rfl
@[simp] theorem autocompleteHandlers_leaf (d : CommandDescriptor) (k : SlashCommandLeaf D) :
    (leaf d k).autocompleteHandlers = k.autocomplete := rfl

end SlashCommand

end GloamCommands
