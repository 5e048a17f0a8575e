/-
  GloamCommands.Macros.Group — what `#[group]` makes of a module, and the command tree of
  a nest of them (crates/gloam-commands-macros/src/group.rs).

  The outer attribute is expanded first and looks at the items below it unexpanded, so
  the children of a group are found by their attributes alone. Then each of them is
  expanded on its own, as is whatever else in the module has one of the two attributes,
  which must stand on a function and on a module. `expandItem` does both for a whole nest:
  it fails where one of the expansions fails, and otherwise returns what the outermost
  factory builds. Of two attributes of one name on an item only the first is seen here,
  and items inside of functions or of `impl` blocks are left out.
-/

import GloamCommands.Lib.Collect
import GloamCommands.Macros.Command

namespace GloamCommands.Macros

open Lib (allSome)

/-! ## Items -/

/-- `external` is a module without an inline body. -/
inductive Item where
  | fn (function : ItemFn)
  | mod (attrs : List Attribute) (ident : Ident) (items : List Item)
  | external (attrs : List Attribute) (ident : Ident)
  | other (attrs : List Attribute)

def Item.attrs : Item → List Attribute
  | fn function => function.attrs
  | mod attrs _ _ => attrs
  | external attrs _ => attrs
  | other attrs => attrs

/-- The first attribute whose path ends in the name, as it may be `gloam_commands::command`. -/
def findAttribute (attrs : List Attribute) (name : String) : Option Attribute :=
  attrs.find? fun attr => attr.path.segments.getLast?.any fun segment => segment.ident.toString == name

def hasAttribute (attrs : List Attribute) (name : String) : Bool := (findAttribute attrs name).isSome

def Meta.tokens : Meta → Arguments
  | path => some []
  | list arguments => arguments
  | nameValue _ => none

/-! ## One group -/

structure GroupArgs where
  name : Option String := none
  description : Option String := none

def GroupArgs.parse (args : GroupArgs) : List (Ident × Option Expr) → Expansion GroupArgs
  | [] => .ok args
  | (_, none) :: _ => .error .parse
  | (key, some expression) :: rest =>
    match parseLitStr expression with
    | .error error => .error error
    | .ok value =>
      if key.toString == "name" then
        if args.name.isSome then .error (.message "duplicate `name` argument")
        else parse { args with name := some value } rest
      else if key.toString == "description" then
        if args.description.isSome then .error (.message "duplicate `description` argument")
        else parse { args with description := some value } rest
      else .error (.message "unsupported group argument; expected `name` or `description`")

def parseGroupArgs : Arguments → Expansion GroupArgs
  | none => .error .parse
  | some entries => GroupArgs.parse {} entries

def inlineBodyRequired : SynError := .message "`#[group]` requires an inline module body"

def Item.isCommand : Item → Bool
  | fn function => hasAttribute function.attrs "command"
  | _ => false

def Item.isGroup : Item → Bool
  | mod attrs _ _ => hasAttribute attrs "group"
  | external attrs _ => hasAttribute attrs "group"
  | _ => false

def validateNativeHierarchy : List Item → Expansion Unit
  | [] => .ok ()
  | .mod attrs _ children :: rest =>
    if hasAttribute attrs "group" && children.any Item.isGroup then
      .error (.message "Discord slash commands support at most `command -> subcommand group -> subcommand`")
    else validateNativeHierarchy rest
  | .external attrs _ :: rest =>
    if hasAttribute attrs "group" then .error inlineBodyRequired else validateNativeHierarchy rest
  | _ :: rest => validateNativeHierarchy rest

def childFactories (items : List Item) : List Item := items.filter fun item => item.isCommand || item.isGroup

mutual

def itemStateType : Item → Expansion (Option RustType)
  | .fn function =>
    if hasAttribute function.attrs "command" then
      match contextType function with
      | .error error => .error error
      | .ok context => (stateType context).map some
    else .ok none
  | .mod attrs _ items => if hasAttribute attrs "group" then findStateType items else .ok none
  | .external attrs _ => if hasAttribute attrs "group" then .error inlineBodyRequired else .ok none
  | .other _ => .ok none
termination_by structural item => item

def findStateType : List Item → Expansion (Option RustType)
  | [] => .ok none
  | item :: rest =>
    match itemStateType item with
    | .error error => .error error
    | .ok (some state) => .ok (some state)
    | .ok none => findStateType rest
termination_by structural items => items

end

/-- What `expand` puts into the generated factory, next to the calls of `childFactories`. -/
structure GroupExpansion where
  name : String
  description : String
  stateType : RustType

def expandBody (items : List Item) (name description : String) : Expansion GroupExpansion :=
  match validateNativeHierarchy items with
  | .error error => .error error
  | .ok () =>
    if (childFactories items).isEmpty then
      .error (.message "slash-command groups require at least one direct `#[command]` or `#[group]` child")
    else
      match findStateType items with
      | .error error => .error error
      | .ok none => .error (.message "slash-command groups must contain at least one `#[command]` leaf")
      | .ok (some state) => .ok ⟨name, description, state⟩

/-- `items` is none without an inline body. -/
def expandGroup (unicode : Unicode) (arguments : Arguments) (ident : Ident) (items : Option (List Item)) :
    Expansion GroupExpansion :=
  match parseGroupArgs arguments with
  | .error error => .error error
  | .ok args =>
    match args.description with
    | none => .error (.message "slash-command groups require `description = \"...\"`")
    | some description =>
      match validateName unicode (args.name.getD ident.unraw) with
      | .error error => .error error
      | .ok () =>
        match validateDescription description with
        | .error error => .error error
        | .ok () =>
          match items with
          | none => .error inlineBodyRequired
          | some items => expandBody items (args.name.getD ident.unraw) description

/-! ## A nest -/

def GroupExpansion.descriptor (expansion : GroupExpansion) : CommandDescriptor where
  name := expansion.name
  description := expansion.description

/-- The attribute, if the item has it, stands on an item of the wrong kind: its arguments
    are parsed first, then the item. -/
def misplaced {α : Type} (attrs : List Attribute) (macroName : String) (parse : Arguments → Expansion α) :
    Expansion Unit :=
  match findAttribute attrs macroName with
  | none => .ok ()
  | some attr =>
    match parse attr.style.tokens with
    | .error error => .error error
    | .ok _ => .error .parse

theorem misplaced_ok {α : Type} {attrs : List Attribute} {macroName : String} {parse : Arguments → Expansion α} :
    misplaced attrs macroName parse = .ok () ↔ findAttribute attrs macroName = none := by
  unfold misplaced
  cases findAttribute attrs macroName with
  | none => exact ⟨fun _ => rfl, fun _ => rfl⟩
  | some attr =>
    dsimp only
    cases parse attr.style.tokens <;> exact ⟨fun h => (by cases h), fun h => (by cases h)⟩

section Nest

variable {D : Type} (unicode : Unicode) (env : Environment D)

mutual

/-- The expansions of an item and of all that is in it, and what its factory builds. -/
def expandItem : Item → Expansion (List (Option (SlashCommand D)))
  | .fn function =>
    match misplaced function.attrs "group" parseGroupArgs with
    | .error error => .error error
    | .ok () =>
      match findAttribute function.attrs "command" with
      | none => .ok []
      | some attr => (expandCommand unicode attr.style.tokens function).map fun expansion => [expansion.factory env]
  | .mod attrs ident items =>
    match misplaced attrs "command" parseCommandArgs with
    | .error error => .error error
    | .ok () =>
      match findAttribute attrs "group" with
      | none => (expandItems items).map fun _ => []
      | some attr =>
        match expandGroup unicode attr.style.tokens ident (some items) with
        | .error error => .error error
        | .ok expansion =>
          match expandItems items with
          | .error error => .error error
          | .ok factories =>
            .ok [(allSome factories).map fun children => .group expansion.descriptor children]
  | .external attrs ident =>
    match misplaced attrs "command" parseCommandArgs with
    | .error error => .error error
    | .ok () =>
      match findAttribute attrs "group" with
      | none => .ok []
      | some attr => (expandGroup unicode attr.style.tokens ident none).map fun _ => []
  | .other attrs =>
    match misplaced attrs "command" parseCommandArgs with
    | .error error => .error error
    | .ok () => (misplaced attrs "group" parseGroupArgs).map fun _ => []
termination_by structural item => item

def expandItems : List Item → Expansion (List (Option (SlashCommand D)))
  | [] => .ok []
  | item :: rest =>
    match expandItem item with
    | .error error => .error error
    | .ok factory => (expandItems rest).map (factory ++ ·)
termination_by structural items => items

end

end Nest

end GloamCommands.Macros
