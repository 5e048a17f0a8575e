/-
  GloamCommands.Options.Extract — typed extraction of one submitted option
  (crates/gloam-commands/src/options.rs).

  A `CommandOption` is an implementation of the trait: the Discord kind of a Rust type,
  and how a value is read from the submitted options. All of the scalar types read the
  first option of the name, check its kind and then its value; they differ in the kind,
  in the value they accept and in the type's name (`scalarOption`). The ids are text on
  the wire, which Gloamwire prints and parses (`IdText`).
  - `scalar_missing`, `scalar_present`: what a scalar type answers, by what was submitted.
-/

import GloamCommands.Core.Resolve

namespace GloamCommands.Options

open Lib (F64)

/-! ## The submitted options -/

structure CommandOptions where
  options : List Submitted

def CommandOptions.get (options : CommandOptions) (name : String) : Option Submitted :=
  options.options.find? fun option => option.name == name

def requiredOption (options : CommandOptions) (name : String) : Except Error Submitted :=
  match options.get name with
  | some option => .ok option
  | none => .error (.missingOption name)

def validateKind (option : Submitted) (name : String) (expectedKind : ApplicationCommandOptionType)
    (expected : String) : Except Error Unit :=
  if option.kind != expectedKind then .error (.invalidOption name expected) else .ok ()

/-! ## The types -/

structure CommandOption (α : Type) where
  kind : ApplicationCommandOptionType
  extract : CommandOptions → String → Except Error α

/-- The scalar types: `variant` is what the type accepts of a value. -/
def scalarOption {α : Type} (kind : ApplicationCommandOptionType)
    (variant : ApplicationCommandInteractionValue → Option α) (expected : String) : CommandOption α where
  kind := kind
  extract options name :=
    match requiredOption options name with
    | .error error => .error error
    | .ok option =>
      match validateKind option name kind expected with
      | .error error => .error error
      | .ok () =>
        match option.value.bind variant with
        | some value => .ok value
        | none => .error (.invalidOption name expected)

def stringVariant : ApplicationCommandInteractionValue → Option String
  | .string value => some value
  | _ => none

def booleanVariant : ApplicationCommandInteractionValue → Option Bool
  | .boolean value => some value
  | _ => none

def integerVariant : ApplicationCommandInteractionValue → Option Int
  | .integer value => some value
  | _ => none

def numberVariant : ApplicationCommandInteractionValue → Option F64
  | .number value => some value
  | _ => none

def stringOption : CommandOption String := scalarOption .string stringVariant "String"

def boolOption : CommandOption Bool := scalarOption .boolean booleanVariant "bool"

def i64Option : CommandOption Int := scalarOption .integer integerVariant "i64"

def f64Option : CommandOption F64 := scalarOption .number numberVariant "f64"

inductive IdType where
  | user
  | channel
  | role
  | attachment
  deriving DecidableEq, Repr

abbrev Snowflake := UInt64

/-- `FromStr` and `Display` of Gloamwire's id types. -/
structure IdText where
  parse : IdType → String → Option Snowflake
  display : IdType → Snowflake → String

/-- What is printed is parsed back. -/
def IdText.Lawful (ids : IdText) : Prop := ∀ type id, ids.parse type (ids.display type id) = some id

def IdType.kind : IdType → ApplicationCommandOptionType
  | user => .user
  | channel => .channel
  | role => .role
  | attachment => .attachment

def IdType.expected : IdType → String
  | user => "gloamwire::model::UserId"
  | channel => "gloamwire::model::ChannelId"
  | role => "gloamwire::model::RoleId"
  | attachment => "gloamwire::model::AttachmentId"

def idOption (ids : IdText) (type : IdType) : CommandOption Snowflake :=
  scalarOption type.kind (fun value => (stringVariant value).bind (ids.parse type)) type.expected

def optionalOption {α : Type} (option : CommandOption α) : CommandOption (Option α) where
  kind := option.kind
  extract options name :=
    match options.get name with
    | none => .ok none
    | some _ =>
      match option.extract options name with
      | .error error => .error error
      | .ok value => .ok (some value)

/-! ## What the answers say -/

def fit {α : Type} (name expected : String) : Option α → Except Error α
  | some value => .ok value
  | none => .error (.invalidOption name expected)

section Scalar

variable {α : Type} {kind : ApplicationCommandOptionType} {variant : ApplicationCommandInteractionValue → Option α}
  {expected name : String} {options : CommandOptions}

theorem scalar_missing (h : options.get name = none) :
    (scalarOption kind variant expected).extract options name = .error (.missingOption name) := by
  simp only [scalarOption, requiredOption, h]

theorem scalar_present {option : Submitted} (h : options.get name = some option) :
    (scalarOption kind variant expected).extract options name =
      if option.kind = kind then
        match option.value with
        | none => .error (.invalidOption name expected)
        | some value => fit name expected (variant value)
      else .error (.invalidOption name expected) := by
  simp only [scalarOption, requiredOption, h]
  by_cases hk : option.kind = kind
  · rw [if_pos hk]
    have hv : validateKind option name kind expected = .ok () := by
      unfold validateKind
      rw [hk, bne_self_eq_false]
      rfl
    rw [hv]
    cases option.value with
    | none => rfl
    | some value =>
      simp only [Option.bind_some]
      cases variant value <;> rfl
  · rw [if_neg hk]
    have hv : validateKind option name kind expected = .error (.invalidOption name expected) := by
      unfold validateKind
      rw [if_pos (bne_iff_ne.mpr hk)]
    rw [hv]

theorem scalar_map {β : Type} (f : α → β) :
    (scalarOption kind (fun value => (variant value).map f) expected).extract options name =
      match (scalarOption kind variant expected).extract options name with
      | .error error => .error error
      | .ok value => .ok (f value) := by
  cases hg : options.get name with
  | none => rw [scalar_missing hg, scalar_missing hg]
  | some option =>
    rw [scalar_present hg, scalar_present hg]
    by_cases hk : option.kind = kind
    · rw [if_pos hk, if_pos hk]
      cases option.value with
      | none => rfl
      | some value =>
        dsimp only
        cases variant value <;> rfl
    · rw [if_neg hk, if_neg hk]

end Scalar

section Optional

variable {α : Type} {option : CommandOption α} {name : String} {options : CommandOptions}

theorem optional_none : (optionalOption option).extract options name = .ok none ↔ options.get name = none := by
  unfold optionalOption
  dsimp only
  split
  · simp_all
  · split <;> simp_all

theorem optional_some {value : α} (h : option.extract options name = .ok value) {submitted : Submitted}
    (hg : options.get name = some submitted) : (optionalOption option).extract options name = .ok (some value) := by
  simp only [optionalOption, hg, h]

theorem optional_error {error : Error} :
    (optionalOption option).extract options name = .error error ↔
      (∃ submitted, options.get name = some submitted) ∧ option.extract options name = .error error := by
  unfold optionalOption
  dsimp only
  cases hg : options.get name with
  | none => simp
  | some submitted => cases option.extract options name <;> simp

end Optional

end GloamCommands.Options
