/-
  GloamCommands.Core.Registration — the Discord command schema published for a registry
  (crates/gloam-commands/src/registration.rs).

  A top-level command emits its scalar options or one option per child; a child emits a
  `SUB_COMMAND` with its scalar options, or a `SUB_COMMAND_GROUP` of `SUB_COMMAND`s.
  `createHierarchyOption` leaves `required` unset and `createScalarOption` always sets
  it, so the payload itself tells a level of the hierarchy from a scalar option
  (`isScalar`), whatever kind a descriptor declares.
-/

import GloamCommands.Core.Registry

namespace GloamCommands

open Lib (F64)

variable {D : Type}

/-! ## Request models -/

inductive ApplicationCommandChoiceValue where
  | string (value : String)
  | integer (value : Int)
  | number (value : F64)
  deriving DecidableEq, Repr

structure ApplicationCommandOptionChoice where
  name : String
  nameLocalizations : Option (List (String × String))
  value : ApplicationCommandChoiceValue
  deriving DecidableEq, Repr

structure ApplicationCommandOption where
  kind : ApplicationCommandOptionType
  name : String
  nameLocalizations : Option (List (String × String))
  description : String
  descriptionLocalizations : Option (List (String × String))
  required : Option Bool
  choices : List ApplicationCommandOptionChoice
  options : List ApplicationCommandOption
  channelTypes : List Nat
  minValue : Option ApplicationCommandNumericValue
  maxValue : Option ApplicationCommandNumericValue
  minLength : Option Nat
  maxLength : Option Nat
  autocomplete : Option Bool
  fileTypes : List String

structure CreateApplicationCommand where
  name : String
  description : String
  options : List ApplicationCommandOption

inductive Registration where
  | global
  | guild (guildId : GuildId)
  | none
  deriving DecidableEq, Repr

/-! ## Conversion -/

def createChoice (descriptor : CommandChoiceDescriptor) : ApplicationCommandOptionChoice where
  name := descriptor.name
  nameLocalizations := none
  value :=
    match descriptor.value with
    | .string value => .string value
    | .integer value => .integer value
    | .number value => .number value

def createScalarOption (descriptor : CommandOptionDescriptor) : ApplicationCommandOption where
  kind := descriptor.kind
  name := descriptor.name
  nameLocalizations := none
  description := descriptor.description
  descriptionLocalizations := none
  required := some descriptor.required
  choices := descriptor.choices.map createChoice
  options := []
  channelTypes := []
  minValue := descriptor.minValue
  maxValue := descriptor.maxValue
  minLength := descriptor.minLength
  maxLength := descriptor.maxLength
  autocomplete := if descriptor.autocomplete then some true else none
  fileTypes := []

def createHierarchyOption (command : SlashCommand D) (kind : ApplicationCommandOptionType)
    (options : List ApplicationCommandOption) : ApplicationCommandOption where
  kind := kind
  name := command.descriptor.name
  nameLocalizations := none
  description := command.descriptor.description
  descriptionLocalizations := none
  required := none
  choices := []
  options := options
  channelTypes := []
  minValue := none
  maxValue := none
  minLength := none
  maxLength := none
  autocomplete := none
  fileTypes := []

def createChildOption (command : SlashCommand D) : ApplicationCommandOption :=
  if command.isLeaf then
    createHierarchyOption command .subCommand (command.descriptor.options.map createScalarOption)
  else
    createHierarchyOption command .subCommandGroup (command.children.map fun child =>
      createHierarchyOption child .subCommand (child.descriptor.options.map createScalarOption))

def createCommand (command : SlashCommand D) : CreateApplicationCommand where
  name := command.descriptor.name
  description := command.descriptor.description
  options :=
    if command.isLeaf then command.descriptor.options.map createScalarOption
    else command.children.map createChildOption

def createCommands (registry : CommandRegistry D) : List CreateApplicationCommand := registry.iter.map createCommand

/-! ## Paths of the payload -/

/-- A scalar option carries `required`; a level of the hierarchy never does. -/
def ApplicationCommandOption.isScalar (option : ApplicationCommandOption) : Bool := option.required.isSome

/-- One root-to-leaf path of the payload below a top-level command: the name and kind of
    each level, and the scalar options at its end. -/
structure PayloadPath where
  levels : List (String × ApplicationCommandOptionType)
  scalars : List ApplicationCommandOption

def PayloadPath.under (name : String) (kind : ApplicationCommandOptionType) (path : PayloadPath) : PayloadPath :=
  ⟨(name, kind) :: path.levels, path.scalars⟩

mutual

/-- The paths through one option of a level: they end at it when its options are all scalar. -/
def optionPaths : ApplicationCommandOption → List PayloadPath
  | ⟨kind, name, _, _, _, _, _, options, _, _, _, _, _, _, _⟩ =>
    (if options.all (·.isScalar) then [⟨[], options⟩] else levelPaths options).map (.under name kind)
termination_by structural option => option

def levelPaths : List ApplicationCommandOption → List PayloadPath
  | [] => []
  | option :: rest => optionPaths option ++ levelPaths rest
termination_by structural options => options

end

def payloadPaths (options : List ApplicationCommandOption) : List PayloadPath :=
  if options.all (·.isScalar) then [⟨[], options⟩] else levelPaths options

/-- Every root-to-leaf path of the payload, named from its top-level command. -/
def CreateApplicationCommand.paths (create : CreateApplicationCommand) : List PayloadPath := payloadPaths create.options

end GloamCommands
