/-
  GloamCommands.Macros.Schema — the option schemas, said apart from how the macro reads
  them.

  `Declares` relates a parameter to the option it declares: its attributes, each at most
  once apart from inline choices, its type, and either a bare `#[choice]` on a type of the
  user's or a scalar with choices and bounds of its own kind. `Typed` says which types a
  bare `#[choice]` may stand on. That these are the schemas the macro accepts is proved in
  `Macros.Attributes` and `Macros.Exact`.
-/

import GloamCommands.Macros.Options
import Mathlib.Data.List.Forall2

namespace GloamCommands.Macros

open Lib (F64)

/-! ## Attributes -/

def named (key : OptionAttribute) (attrs : List Attribute) : List Meta :=
  (attrs.filter fun attr => optionAttribute attr == some key).map Attribute.style

/-- No attribute of the name, or one, `#[name = value]`, that reads as the value. -/
def Declared {α : Type} (Reads : Expr → α → Prop) (key : OptionAttribute) (attrs : List Attribute) : Option α → Prop
  | none => named key attrs = []
  | some value => ∃ expression, named key attrs = [.nameValue expression] ∧ Reads expression value

def StringLiteral (expression : Expr) (value : String) : Prop := expression = .lit (.str value)

def HandlerPath (expression : Expr) (path : Path) : Prop :=
  expression = .path false path ∧ path.segments ≠ [] ∧ ∀ segment ∈ path.segments, segment.arguments.isNone = true

def IntegerBound (expression : Expr) (value : Int) : Prop := IntegerLiteral expression value ∧ IntegerInRange value

def NumberBound (expression : Expr) (value : F64) : Prop := NumberLiteral expression value ∧ NumberInRange value

def LengthBound (expression : Expr) (value : Nat) : Prop := expression = .lit (.int false value) ∧ value < 2 ^ 32

def nameEntry : Ident × Option Expr → Option String
  | (key, some (.lit (.str literal))) => if key.toString == "name" then some literal else none
  | _ => none

def valueEntry : Ident × Option Expr → Option Expr
  | (key, some expression) => if key.toString == "value" then some expression else none
  | _ => none

/-- The arguments of one `#[choice(..)]`: a name and a value, each at most once. -/
def ChoiceEntries (arguments : Arguments) (args : ChoiceArgs) : Prop :=
  ∃ entries, arguments = some entries ∧
    (∀ entry ∈ entries, (nameEntry entry).isSome = true ∨ (valueEntry entry).isSome = true) ∧
    entries.filterMap nameEntry = args.name.toList ∧ entries.filterMap valueEntry = args.value.toList

def Meta.isBare : Meta → Bool
  | path => true
  | _ => false

def Meta.arguments : Meta → Option Arguments
  | list arguments => some arguments
  | _ => none

/-- At most one bare `#[choice]`, and the inline ones. -/
structure DeclaresChoices (attrs : List Attribute) (bare : Bool) (inline : List ChoiceArgs) : Prop where
  form : ∀ style ∈ named .choice attrs, ∀ value, style ≠ .nameValue value
  bare : (named .choice attrs).countP Meta.isBare = bare.toNat
  inline : List.Forall₂ ChoiceEntries ((named .choice attrs).filterMap Meta.arguments) inline

/-! ## Types -/

inductive PlainPath : RustType → Ident → Prop where
  | intro {segments : List PathSegment} {ident : Ident} : segments.getLast? = some (.mk ident .none) →
      PlainPath (.path segments) ident

inductive OptionOf : RustType → RustType → Prop where
  | intro {segments : List PathSegment} {ident : Ident} {inner : RustType} :
      segments.getLast? = some (.mk ident (.angleBracketed [.type inner])) → ident.toString = "Option" →
      OptionOf (.path segments) inner

def OptionalOf (P : RustType → Prop) (ty : RustType) (required : Bool) : Prop :=
  (required = true ∧ P ty) ∨ (required = false ∧ ∃ inner, OptionOf ty inner ∧ P inner)

def IsScalar (kind : OptionKind) (ty : RustType) : Prop :=
  ∃ ident, PlainPath ty ident ∧ knownOptionKind ident = some kind

/-- A plain name that is not taken: of a type that can derive `CommandChoice`. -/
def IsChoiceType (ty : RustType) : Prop :=
  ∃ ident, PlainPath ty ident ∧ knownOptionKind ident = none ∧ ident.toString ≠ "Option"

/-! ## Choices and bounds -/

inductive ValueOf : OptionKind → Expr → InlineChoiceValue → Prop where
  | string {value : String} : value.length ≤ maxChoiceStringLength → ValueOf .string (.lit (.str value)) (.string value)
  | integer {expression : Expr} {value : Int} : IntegerBound expression value → ValueOf .integer expression (.integer value)
  | number {expression : Expr} {value : F64} : NumberBound expression value → ValueOf .number expression (.number value)

structure ChoiceOf (kind : OptionKind) (args : ChoiceArgs) (choice : InlineChoice) : Prop where
  name : args.name = some choice.name
  length : 1 ≤ choice.name.length ∧ choice.name.length ≤ 100
  value : ∃ expression, args.value = some expression ∧ ValueOf kind expression choice.value

/-- No inline choice, or up to 25 of a kind that has them, by distinct names and values. -/
inductive ChoiceSchema (kind : OptionKind) : List ChoiceArgs → ChoiceSource → Prop where
  | none : ChoiceSchema kind [] .none
  | inline {args : List ChoiceArgs} {choices : List InlineChoice} : args ≠ [] → args.length ≤ maxChoices →
      kind.choosable = true → List.Forall₂ (ChoiceOf kind) args choices → (choices.map (·.name)).Nodup →
      choices.Pairwise (fun a b => sameChoiceValue a.value b.value = false) → ChoiceSchema kind args (.inline choices)

def NumericSchema (attrs : List Attribute) (kind : OptionKind) (min max : Option NumericBound) : Prop :=
  match kind with
  | .integer => ∃ low high, Declared IntegerBound .min attrs low ∧ Declared IntegerBound .max attrs high ∧
      (∀ l ∈ low, ∀ h ∈ high, l ≤ h) ∧ min = low.map .integer ∧ max = high.map .integer
  | .number => ∃ low high, Declared NumberBound .min attrs low ∧ Declared NumberBound .max attrs high ∧
      (∀ l ∈ low, ∀ h ∈ high, l.le h = true) ∧ min = low.map .number ∧ max = high.map .number
  | _ => named .min attrs = [] ∧ named .max attrs = [] ∧ min = none ∧ max = none

def LengthSchema (attrs : List Attribute) (kind : OptionKind) (min max : Option Nat) : Prop :=
  match kind with
  | .string => Declared LengthBound .minLength attrs min ∧ Declared LengthBound .maxLength attrs max ∧
      (∀ l ∈ min, l ≤ maxStringLength) ∧ (∀ h ∈ max, 1 ≤ h ∧ h ≤ maxStringLength) ∧ ∀ l ∈ min, ∀ h ∈ max, l ≤ h
  | _ => named .minLength attrs = [] ∧ named .maxLength attrs = [] ∧ min = none ∧ max = none

/-! ## Parameters -/

/-- An option whose choices are its type's. -/
structure TypedSchema (Typed : RustType → Prop) (attrs : List Attribute) (ty : RustType) (option : OptionParameter) :
    Prop where
  choices : DeclaresChoices attrs true []
  autocomplete : named .autocomplete attrs = []
  bounds : named .min attrs = [] ∧ named .max attrs = [] ∧ named .minLength attrs = [] ∧ named .maxLength attrs = []
  type : OptionalOf Typed ty option.required
  carried : option.choices = .typed ∧ option.autocomplete = none ∧ option.min = none ∧ option.max = none ∧
    option.minLength = none ∧ option.maxLength = none

structure ScalarSchema (attrs : List Attribute) (ty : RustType) (kind : OptionKind) (inline : List ChoiceArgs)
    (option : OptionParameter) : Prop where
  choices : DeclaresChoices attrs false inline
  autocomplete : Declared HandlerPath .autocomplete attrs option.autocomplete
  completes : option.autocomplete.isSome = true → kind.choosable = true ∧ inline = []
  type : OptionalOf (IsScalar kind) ty option.required
  inline : ChoiceSchema kind inline option.choices
  bounds : NumericSchema attrs kind option.min option.max
  lengths : LengthSchema attrs kind option.minLength option.maxLength

structure Declares (unicode : Unicode) (Typed : RustType → Prop) (argument : FnArg) (option : OptionParameter) : Prop where
  parameter : ∃ attrs, argument = .typed attrs (.ident option.ident false) option.ty ∧
    Declared StringLiteral .description attrs (some option.description) ∧
    (TypedSchema Typed attrs option.ty option ∨ ∃ kind inline, ScalarSchema attrs option.ty kind inline option)
  name : option.name = option.ident.unraw ∧ ValidName unicode option.name
  description : 1 ≤ option.description.length ∧ option.description.length ≤ 100

def RequiredFirst (options : List OptionParameter) : Prop :=
  options.Pairwise fun earlier later => later.required = true → earlier.required = true

end GloamCommands.Macros
