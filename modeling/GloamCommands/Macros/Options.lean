/-
  GloamCommands.Macros.Options — the option schema a handler's parameters declare
  (`option_parameters`, `option_parameter`, `take_option_attributes` and what they call in
  crates/gloam-commands-macros/src/command.rs).

  Each parameter after the context is one option. Its framework attributes are taken off
  it, the rest stay; then either a bare `#[choice]` leaves everything to the type, or the
  type is one of eight scalars and the choices and bounds are checked against its kind.
  What the schemas are that pass is said in `Macros.Schema`.
-/

import GloamCommands.Macros.Syntax

namespace GloamCommands.Macros

open Lib (F64)

def maxCommandOptions : Nat := 25
def maxChoices : Nat := 25
def maxStringLength : Nat := 6000
def maxChoiceStringLength : Nat := 100

/-! ## What is parsed -/

inductive OptionKind where
  | string
  | boolean
  | integer
  | number
  | user
  | channel
  | role
  | attachment
  deriving DecidableEq, Repr

def OptionKind.choosable : OptionKind → Bool
  | string => true
  | integer => true
  | number => true
  | _ => false

inductive NumericBound where
  | integer (value : Int)
  | number (value : F64)
  deriving DecidableEq, Repr

inductive InlineChoiceValue where
  | string (value : String)
  | integer (value : Int)
  | number (value : F64)
  deriving DecidableEq, Repr

structure InlineChoice where
  name : String
  value : InlineChoiceValue
  deriving DecidableEq, Repr

inductive ChoiceSource where
  | none
  | inline (choices : List InlineChoice)
  | typed
  deriving DecidableEq, Repr

structure OptionParameter where
  ident : Ident
  ty : RustType
  name : String
  description : String
  required : Bool
  choices : ChoiceSource
  autocomplete : Option Path
  min : Option NumericBound
  max : Option NumericBound
  minLength : Option Nat
  maxLength : Option Nat

/-- `InlineChoiceArgs`, and `ChoiceArgs` of the derive. -/
structure ChoiceArgs where
  name : Option String
  value : Option Expr

def ChoiceArgs.parse (args : ChoiceArgs) : List (Ident × Option Expr) → Expansion ChoiceArgs
  | [] => .ok args
  | (_, none) :: _ => .error .parse
  | (key, some expression) :: rest =>
    if key.toString == "name" then
      match expression with
      | .lit (.str literal) =>
        if args.name.isSome then .error (.message "duplicate `name` argument")
        else parse { args with name := some literal } rest
      | _ => .error .parse
    else if key.toString == "value" then
      if args.value.isSome then .error (.message "duplicate `value` argument")
      else parse { args with value := some expression } rest
    else .error (.message "unsupported choice argument; expected `name` or `value`")

def parseChoiceArgs : Arguments → Expansion ChoiceArgs
  | none => .error .parse
  | some entries => ChoiceArgs.parse ⟨none, none⟩ entries

structure OptionAttributes where
  description : Option String := none
  min : Option Expr := none
  max : Option Expr := none
  minLength : Option Expr := none
  maxLength : Option Expr := none
  autocomplete : Option Path := none
  typedChoice : Bool := false
  inlineChoices : List ChoiceArgs := []

/-! ## Attributes -/

inductive OptionAttribute where
  | description
  | min
  | max
  | minLength
  | maxLength
  | autocomplete
  | choice
  deriving DecidableEq, Repr

def optionAttribute (attr : Attribute) : Option OptionAttribute :=
  if attr.path.isIdent "description" then some .description
  else if attr.path.isIdent "min" then some .min
  else if attr.path.isIdent "max" then some .max
  else if attr.path.isIdent "min_length" then some .minLength
  else if attr.path.isIdent "max_length" then some .maxLength
  else if attr.path.isIdent "autocomplete" then some .autocomplete
  else if attr.path.isIdent "choice" then some .choice
  else none

def setOnce {α : Type} (slot : Option α) (value : α) (name : String) : Expansion (Option α) :=
  if slot.isSome then .error (.message ("duplicate `#[" ++ name ++ " = ...]` attribute")) else .ok (some value)

def parseExpressionAttribute (style : Meta) (name : String) : Expansion Expr :=
  match style with
  | .nameValue value => .ok value
  | _ => .error (.message ("expected `#[" ++ name ++ " = ...]`"))

def parseStringAttribute (style : Meta) (name : String) : Expansion String :=
  match parseExpressionAttribute style name with
  | .error error => .error error
  | .ok (.lit (.str value)) => .ok value
  | .ok _ => .error (.message ("`#[" ++ name ++ " = ...]` requires a string literal"))

def parsePathAttribute (style : Meta) (name : String) : Expansion Path :=
  match parseExpressionAttribute style name with
  | .error error => .error error
  | .ok (.path qself path) =>
    if qself || path.segments.isEmpty || path.segments.any (fun segment => !segment.arguments.isNone) then
      .error (.message ("`#[" ++ name ++ " = ...]` requires a handler function path"))
    else .ok path
  | .ok _ => .error (.message ("`#[" ++ name ++ " = ...]` requires a handler function path"))

def takeSlot {α : Type} (parse : Meta → String → Expansion α) (name : String) (slot : Option α) (style : Meta) :
    Expansion (Option α) :=
  match parse style name with
  | .error error => .error error
  | .ok value => setOnce slot value name

def takeChoice (parsed : OptionAttributes) : Meta → Expansion OptionAttributes
  | .path =>
    if parsed.typedChoice then .error (.message "duplicate bare `#[choice]` marker")
    else .ok { parsed with typedChoice := true }
  | .list arguments =>
    match parseChoiceArgs arguments with
    | .error error => .error error
    | .ok args => .ok { parsed with inlineChoices := parsed.inlineChoices ++ [args] }
  | .nameValue _ =>
    .error (.message "expected bare `#[choice]` or `#[choice(name = \"...\", value = ...)]`")

def takeAttribute (parsed : OptionAttributes) (style : Meta) : OptionAttribute → Expansion OptionAttributes
  | .description =>
    (takeSlot parseStringAttribute "description" parsed.description style).map fun d => { parsed with description := d }
  | .min => (takeSlot parseExpressionAttribute "min" parsed.min style).map fun m => { parsed with min := m }
  | .max => (takeSlot parseExpressionAttribute "max" parsed.max style).map fun m => { parsed with max := m }
  | .minLength =>
    (takeSlot parseExpressionAttribute "min_length" parsed.minLength style).map fun m => { parsed with minLength := m }
  | .maxLength =>
    (takeSlot parseExpressionAttribute "max_length" parsed.maxLength style).map fun m => { parsed with maxLength := m }
  | .autocomplete =>
    (takeSlot parsePathAttribute "autocomplete" parsed.autocomplete style).map fun a => { parsed with autocomplete := a }
  | .choice => takeChoice parsed style

/-- The loop of `take_option_attributes`, with what it has parsed and retained. -/
def takeOptionAttributes (parsed : OptionAttributes) (retained : List Attribute) :
    List Attribute → Expansion (OptionAttributes × List Attribute)
  | [] => .ok (parsed, retained)
  | attr :: rest =>
    match optionAttribute attr with
    | none => takeOptionAttributes parsed (retained ++ [attr]) rest
    | some key =>
      match takeAttribute parsed attr.style key with
      | .error error => .error error
      | .ok parsed => takeOptionAttributes parsed retained rest

/-! ## Types -/

def optionInnerType : RustType → Expansion (Option RustType)
  | .path segments =>
    match segments.getLast? with
    | none => .ok none
    | some segment =>
      if segment.ident.toString != "Option" then .ok none
      else
        match segment.arguments with
        | .angleBracketed [.type inner] => .ok (some inner)
        | .angleBracketed [.other] =>
          .error (.message "`Option` slash-command parameters require an inner Rust type")
        | _ => .error (.message "`Option` slash-command parameters require exactly one inner type")
  | _ => .ok none

def knownOptionKind (ident : Ident) : Option OptionKind :=
  match ident.toString with
  | "String" => some .string
  | "bool" => some .boolean
  | "i64" => some .integer
  | "f64" => some .number
  | "UserId" => some .user
  | "ChannelId" => some .channel
  | "RoleId" => some .role
  | "AttachmentId" => some .attachment
  | _ => none

def unsupportedOptionType : SynError :=
  .message "unsupported slash-command option type; expected `String`, `bool`, `i64`, `f64`, `UserId`, `ChannelId`, `RoleId`, `AttachmentId`, or `Option<T>` of one of those types"

def supportedOptionKind : RustType → Expansion OptionKind
  | .path segments =>
    match segments.getLast? with
    | none => .error unsupportedOptionType
    | some segment =>
      if !segment.arguments.isNone then .error unsupportedOptionType
      else
        match knownOptionKind segment.ident with
        | none => .error unsupportedOptionType
        | some kind => .ok kind
  | _ => .error unsupportedOptionType

/-- The type inside `Option`, or the type itself when it is required. -/
def unwrapOption (ty : RustType) : Expansion (RustType × Bool) :=
  match optionInnerType ty with
  | .error error => .error error
  | .ok none => .ok (ty, true)
  | .ok (some inner) =>
    match optionInnerType inner with
    | .error error => .error error
    | .ok (some _) => .error (.message "nested `Option<Option<T>>` slash-command parameters are not supported")
    | .ok none => .ok (inner, false)

def optionType (ty : RustType) : Expansion (OptionKind × Bool) :=
  match unwrapOption ty with
  | .error error => .error error
  | .ok (inner, required) =>
    match supportedOptionKind inner with
    | .error error => .error error
    | .ok kind => .ok (kind, required)

def validateTypedChoiceType (ty : RustType) : Expansion Bool :=
  let refused := SynError.message "bare `#[choice]` requires a type that derives `CommandChoice`"
  match unwrapOption ty with
  | .error error => .error error
  | .ok (.path segments, required) =>
    match segments.getLast? with
    | none => .error refused
    | some segment =>
      if !segment.arguments.isNone || (knownOptionKind segment.ident).isSome then .error refused else .ok required
  | .ok _ => .error refused

/-! ## Choices and bounds -/

def validateChoiceName (name : String) : Expansion Unit :=
  if name.length < 1 ∨ 100 < name.length then
    .error (.message "Discord choice names must contain between 1 and 100 characters")
  else .ok ()

def parseStringChoiceValue : Expr → Expansion InlineChoiceValue
  | .lit (.str value) =>
    if maxChoiceStringLength < value.length then
      .error (.message "Discord string choice values must contain at most 100 characters")
    else .ok (.string value)
  | _ => .error (.message "string choices require string literal values")

/-- The source's `unreachable!` is the last case. -/
def inlineChoiceValue (kind : OptionKind) (expression : Expr) : Expansion InlineChoiceValue :=
  match kind with
  | .string => parseStringChoiceValue expression
  | .integer => (parseIntegerBound expression).map .integer
  | .number => (parseNumberBound expression).map .number
  | _ => .error .parse

def sameChoiceValue : InlineChoiceValue → InlineChoiceValue → Bool
  | .string left, .string right => left == right
  | .integer left, .integer right => left == right
  | .number left, .number right => left.eq right
  | _, _ => false

def inlineChoices (kind : OptionKind) (names : List String) (parsed : List InlineChoice) :
    List ChoiceArgs → Expansion (List InlineChoice)
  | [] => .ok parsed
  | choice :: rest =>
    match choice.name with
    | none => .error (.message "inline choices require `name = \"...\"`")
    | some name =>
      match validateChoiceName name with
      | .error error => .error error
      | .ok () =>
        if name ∈ names then .error (.message "duplicate Discord choice name")
        else
          match choice.value with
          | none => .error (.message "inline choices require `value = ...`")
          | some expression =>
            match inlineChoiceValue kind expression with
            | .error error => .error error
            | .ok value =>
              if parsed.any (fun existing => sameChoiceValue existing.value value) then
                .error (.message "duplicate Discord choice value")
              else inlineChoices kind (name :: names) (parsed ++ [⟨name, value⟩]) rest

def parseInlineChoices (kind : OptionKind) (choices : List ChoiceArgs) : Expansion ChoiceSource :=
  if choices.isEmpty then .ok .none
  else if maxChoices < choices.length then
    .error (.message "Discord command options support at most 25 choices")
  else if !kind.choosable then
    .error (.message "Discord choices are only supported for `String`, `i64`, and `f64` options")
  else (inlineChoices kind [] [] choices).map .inline

def parseOptional {α : Type} (parse : Expr → Expansion α) : Option Expr → Expansion (Option α)
  | none => .ok none
  | some expression => (parse expression).map some

/-- One kind of `numeric_bounds`: both are parsed, and then compared. -/
def orderedBounds {α : Type} (parse : Expr → Expansion α) (less : α → α → Bool) (error : String)
    (min max : Option Expr) : Expansion (Option α × Option α) :=
  match parseOptional parse min with
  | .error error => .error error
  | .ok low =>
    match parseOptional parse max with
    | .error error => .error error
    | .ok high =>
      match low, high with
      | some l, some h => if less h l then .error (.message error) else .ok (some l, some h)
      | _, _ => .ok (low, high)

def numericBounds (kind : OptionKind) (min max : Option Expr) : Expansion (Option NumericBound × Option NumericBound) :=
  if min.isNone && max.isNone then .ok (none, none)
  else
    match kind with
    | .integer =>
      (orderedBounds parseIntegerBound (fun a b => decide (a < b)) "integer `min` cannot be greater than `max`" min max).map
        fun bounds => (bounds.1.map .integer, bounds.2.map .integer)
    | .number =>
      (orderedBounds parseNumberBound F64.lt "number `min` cannot be greater than `max`" min max).map
        fun bounds => (bounds.1.map .number, bounds.2.map .number)
    | _ => .error (.message "`#[min = ...]` and `#[max = ...]` are only supported for `i64` and `f64` options")

def stringBounds (kind : OptionKind) (min max : Option Expr) : Expansion (Option Nat × Option Nat) :=
  if min.isNone && max.isNone then .ok (none, none)
  else if kind ≠ .string then
    .error (.message "`#[min_length = ...]` and `#[max_length = ...]` are only supported for `String` options")
  else
    match parseOptional parseLength min with
    | .error error => .error error
    | .ok low =>
      match parseOptional parseLength max with
      | .error error => .error error
      | .ok high =>
        if low.any (fun value => maxStringLength < value) then
          .error (.message "Discord string `min_length` must be between 0 and 6000")
        else if high.any (fun value => value < 1 || maxStringLength < value) then
          .error (.message "Discord string `max_length` must be between 1 and 6000")
        else
          match low, high with
          | some l, some h =>
            if h < l then .error (.message "string `min_length` cannot be greater than `max_length`")
            else .ok (some l, some h)
          | _, _ => .ok (low, high)

/-! ## Parameters -/

/-- `option_parameter` from a bare `#[choice]` on. -/
def typedParameter (ident : Ident) (ty : RustType) (description : String) (attributes : OptionAttributes) :
    Expansion OptionParameter :=
  match validateTypedChoiceType ty with
  | .error error => .error error
  | .ok required =>
    if attributes.min.isSome || attributes.max.isSome || attributes.minLength.isSome || attributes.maxLength.isSome then
      .error (.message "typed `CommandChoice` options cannot declare scalar min/max constraints")
    else
      .ok {
        ident := ident, ty := ty, name := ident.unraw, description := description, required := required
        choices := .typed, autocomplete := none, min := none, max := none, minLength := none, maxLength := none }

/-- `option_parameter` for a scalar. -/
def scalarParameter (ident : Ident) (ty : RustType) (description : String) (attributes : OptionAttributes) :
    Expansion OptionParameter :=
  match optionType ty with
  | .error error => .error error
  | .ok (kind, required) =>
    if attributes.autocomplete.isSome && !kind.choosable then
      .error (.message "autocomplete is only supported for `String`, `i64`, and `f64` options")
    else
      match parseInlineChoices kind attributes.inlineChoices with
      | .error error => .error error
      | .ok choices =>
        match numericBounds kind attributes.min attributes.max with
        | .error error => .error error
        | .ok (min, max) =>
          match stringBounds kind attributes.minLength attributes.maxLength with
          | .error error => .error error
          | .ok (minLength, maxLength) =>
            .ok {
              ident := ident, ty := ty, name := ident.unraw, description := description, required := required
              choices := choices, autocomplete := attributes.autocomplete, min := min, max := max
              minLength := minLength, maxLength := maxLength }

/-- `option_parameter` for a parameter with a plain name. -/
def namedParameter (unicode : Unicode) (ident : Ident) (attrs : List Attribute) (ty : RustType) :
    Expansion OptionParameter :=
  match validateName unicode ident.unraw with
  | .error error => .error error
  | .ok () =>
    match takeOptionAttributes {} [] attrs with
    | .error error => .error error
    | .ok (attributes, _) =>
      match attributes.description with
      | none => .error (.message "slash-command options require `#[description = \"...\"]`")
      | some description =>
        match validateDescription description with
        | .error error => .error error
        | .ok () =>
          if attributes.typedChoice && !attributes.inlineChoices.isEmpty then
            .error (.message "a typed `#[choice]` option cannot also declare inline choices")
          else if attributes.autocomplete.isSome && (attributes.typedChoice || !attributes.inlineChoices.isEmpty) then
            .error (.message "autocomplete cannot be combined with static command choices")
          else if attributes.typedChoice then typedParameter ident ty description attributes
          else scalarParameter ident ty description attributes

def optionParameter (unicode : Unicode) : FnArg → Expansion OptionParameter
  | .receiver => .error (.message "slash-command options must be typed function parameters")
  | .typed attrs (.ident ident false) ty => namedParameter unicode ident attrs ty
  | .typed _ _ _ => .error (.message "slash-command options require simple identifier parameter patterns")

def parameters (unicode : Unicode) (sawOptional : Bool) (options : List OptionParameter) :
    List FnArg → Expansion (List OptionParameter)
  | [] => .ok options
  | argument :: rest =>
    match optionParameter unicode argument with
    | .error error => .error error
    | .ok option =>
      if option.required && sawOptional then
        .error (.message "required slash-command options must appear before optional `Option<T>` parameters")
      else parameters unicode (sawOptional || !option.required) (options ++ [option]) rest

/-- `inputs` starts with the context. -/
def optionParameters (unicode : Unicode) (inputs : List FnArg) : Expansion (List OptionParameter) :=
  if maxCommandOptions < inputs.length - 1 then
    .error (.message "Discord chat-input commands support at most 25 options")
  else parameters unicode false [] (inputs.drop 1)

end GloamCommands.Macros
