/-
  GloamCommands.Options.Adapter — the handler a `#[command]` function becomes
  (`expand`, `option_descriptor_tokens` in crates/gloam-commands-macros/src/command.rs).

  Each parameter after the context has a type, plain or in an `Option`. The macro
  registers a descriptor for it, and generates a handler that extracts the parameters in
  declaration order, returning at the first error, and then calls the function.

  A submission of an assignment has one option for every value given, under the
  registered name and kind (`Submits`). The list Discord sends is some order of these,
  among options of other names.
  - `extractAll_submits`: from such a list the assignment is extracted.
  - `extractAll_error`: an error is that of the first parameter at fault (`Fault`).
  - `typed_extraction`: both, of the generated handler.
-/

import GloamCommands.Options.Choice
import Mathlib.Data.List.Perm.Basic
import Std.Data.String.ToNat

namespace GloamCommands.Options

open Lib (F64 find_unique)

variable {display : F64 → String} {D : Type}

/-! ## Parameters -/

inductive ParameterType (display : F64 → String) where
  | string
  | boolean
  | integer
  | number
  | id (type : IdType)
  | choice (e : ChoiceEnum display)

namespace ParameterType

def Value : ParameterType display → Type
  | string => String
  | boolean => Bool
  | integer => Int
  | number => F64
  | id _ => Snowflake
  | choice e => e.Value

def option (ids : IdText) : (type : ParameterType display) → CommandOption type.Value
  | string => stringOption
  | boolean => boolOption
  | integer => i64Option
  | number => f64Option
  | id type => idOption ids type
  | choice e => e.option

def typedChoices : ParameterType display → List CommandChoiceDescriptor
  | choice e => (List.finRange e.variants.length).map fun i => ⟨(e.variants.get i).name, e.value i⟩
  | _ => []

end ParameterType

inductive ChoiceSource where
  | none
  | typed
  | inline (choices : List CommandChoiceDescriptor)

structure OptionParameter (display : F64 → String) where
  name : String
  description : String
  type : ParameterType display
  /-- The parameter is not an `Option`. -/
  required : Bool
  choices : ChoiceSource
  autocomplete : Bool
  min : Option ApplicationCommandNumericValue
  max : Option ApplicationCommandNumericValue
  minLength : Option Nat
  maxLength : Option Nat

def Wrapped : Bool → Type → Type
  | true, T => T
  | false, T => Option T

def wrappedOption {α : Type} : (required : Bool) → CommandOption α → CommandOption (Wrapped required α)
  | true, option => option
  | false, option => optionalOption option

namespace OptionParameter

def Value (p : OptionParameter display) : Type := Wrapped p.required p.type.Value

def option (ids : IdText) (p : OptionParameter display) : CommandOption p.Value :=
  wrappedOption p.required (p.type.option ids)

def descriptor (ids : IdText) (p : OptionParameter display) : CommandOptionDescriptor where
  name := p.name
  description := p.description
  kind := (p.option ids).kind
  required := p.required
  choices :=
    match p.choices with
    | .none => []
    | .typed => p.type.typedChoices
    | .inline choices => choices
  autocomplete := p.autocomplete
  minValue := p.min
  maxValue := p.max
  minLength := p.minLength
  maxLength := p.maxLength

end OptionParameter

def Values : List (OptionParameter display) → Type
  | [] => Unit
  | p :: rest => p.Value × Values rest

/-- The generated extraction: one `?` after the other. -/
def extractAll (ids : IdText) (options : CommandOptions) :
    (parameters : List (OptionParameter display)) → Except Error (Values parameters)
  | [] => .ok ()
  | p :: rest =>
    match (p.option ids).extract options p.name with
    | .error error => .error error
    | .ok value =>
      match extractAll ids options rest with
      | .error error => .error error
      | .ok values => .ok (value, values)

/-- The generated handler of `function`. -/
def adapter (ids : IdText) (parameters : List (OptionParameter display))
    (function : Context → Values parameters → CommandFuture D) : CommandHandler D :=
  fun ctx data =>
    match extractAll ids ⟨ctx.commandOptions⟩ parameters with
    | .error error => (.error error, data)
    | .ok values => function ctx values data

/-! ## Submissions -/

def choiceWire : CommandChoiceValue → ApplicationCommandInteractionValue
  | .string value => .string value
  | .integer value => .integer value
  | .number value => .number value

def encodeValue (ids : IdText) : (type : ParameterType display) → type.Value → ApplicationCommandInteractionValue
  | .string, value => .string value
  | .boolean, value => .boolean value
  | .integer, value => .integer value
  | .number, value => .number value
  | .id type, value => .string (ids.display type value)
  | .choice e, i => choiceWire (e.value i)

def given {α : Type} : (required : Bool) → Wrapped required α → Option α
  | true, value => some value
  | false, value => value

structure Encodes (ids : IdText) (p : OptionParameter display) (value : p.type.Value) (option : Submitted) : Prop where
  name : option.name = (p.descriptor ids).name
  kind : option.kind = (p.descriptor ids).kind
  value : option.value = some (encodeValue ids p.type value)

/-- One option for each value given, in declaration order. -/
def Submits (ids : IdText) : (parameters : List (OptionParameter display)) → Values parameters → List Submitted → Prop
  | [], _, encoded => encoded = []
  | p :: rest, (value, values), encoded =>
    match given p.required value with
    | none => Submits ids rest values encoded
    | some value => ∃ option others, encoded = option :: others ∧ Encodes ids p value option ∧
        Submits ids rest values others

/-! ## Faults -/

inductive Scalar where
  | string
  | integer
  | number
  | boolean
  deriving DecidableEq, Repr

def scalarOf : ApplicationCommandInteractionValue → Scalar
  | .string _ => .string
  | .integer _ => .integer
  | .number _ => .number
  | .boolean _ => .boolean

namespace ParameterType

def kind : ParameterType display → ApplicationCommandOptionType
  | string => .string
  | boolean => .boolean
  | integer => .integer
  | number => .number
  | id type => type.kind
  | choice e => e.optionKind

def scalar : ParameterType display → Scalar
  | string => .string
  | boolean => .boolean
  | integer => .integer
  | number => .number
  | id _ => .string
  | choice e =>
    match e.kind with
    | .string => .string
    | .integer => .integer
    | .number => .number

/-- The type's name in an `InvalidOption`. -/
def expected : ParameterType display → String
  | string => "String"
  | boolean => "bool"
  | integer => "i64"
  | number => "f64"
  | id type => type.expected
  | choice e => e.kind.expected

end ParameterType

/-- What can be wrong with the first option of the name, and the error it is. -/
inductive Malformed (ids : IdText) (options : CommandOptions) (name : String) :
    ParameterType display → Error → Prop
  | missing {type : ParameterType display} : options.get name = none → Malformed ids options name type (.missingOption name)
  | otherKind {type : ParameterType display} {option : Submitted} : options.get name = some option →
      option.kind ≠ type.kind → Malformed ids options name type (.invalidOption name type.expected)
  | noValue {type : ParameterType display} {option : Submitted} : options.get name = some option →
      option.kind = type.kind → option.value = none → Malformed ids options name type (.invalidOption name type.expected)
  | otherVariant {type : ParameterType display} {option : Submitted} {value : ApplicationCommandInteractionValue} :
      options.get name = some option → option.kind = type.kind → option.value = some value →
      scalarOf value ≠ type.scalar → Malformed ids options name type (.invalidOption name type.expected)
  | unparsable {type : IdType} {option : Submitted} {text : String} : options.get name = some option →
      option.kind = type.kind → option.value = some (.string text) → ids.parse type text = none →
      Malformed ids options name (.id type) (.invalidOption name type.expected)
  | unregistered {e : ChoiceEnum display} {option : Submitted} {value : CommandChoiceValue} :
      options.get name = some option → option.kind = e.optionKind → option.value = some (choiceWire value) →
      scalarOf (choiceWire value) = (ParameterType.choice e).scalar → (∀ i : e.Value, accepts (e.value i) value = false) →
      Malformed ids options name (.choice e) (.invalidChoice name)

/-- A parameter is at fault with its option; an `Option` may do without one. -/
def Fault (ids : IdText) (options : CommandOptions) (p : OptionParameter display) (error : Error) : Prop :=
  Malformed ids options p.name p.type error ∧ (p.required = true ∨ ∃ option, options.get p.name = some option)

/-- The first parameter at fault, in declaration order, is at fault with `error`. -/
def FirstFault (ids : IdText) (options : CommandOptions) (parameters : List (OptionParameter display))
    (error : Error) : Prop :=
  ∃ before p after, parameters = before ++ p :: after ∧ (∀ q ∈ before, ∀ e, ¬ Fault ids options q e) ∧
    Fault ids options p error

theorem exists_firstFault {ids : IdText} {options : CommandOptions} {parameters : List (OptionParameter display)}
    (h : ∃ p ∈ parameters, ∃ e, Fault ids options p e) : ∃ error, FirstFault ids options parameters error := by
  induction parameters with
  | nil =>
    obtain ⟨p, hm, -⟩ := h
    cases hm
  | cons p rest ih =>
    by_cases hp : ∃ e, Fault ids options p e
    · obtain ⟨e, he⟩ := hp
      exact ⟨e, [], p, rest, rfl, fun _ hq => (by cases hq), he⟩
    · obtain ⟨q, hm, e, he⟩ := h
      have hq : q ∈ rest := by
        rcases List.mem_cons.mp hm with rfl | hm
        · exact absurd ⟨e, he⟩ hp
        · exact hm
      obtain ⟨error, before, first, after, rfl, hbefore, hfirst⟩ := ih ⟨q, hq, e, he⟩
      exact ⟨error, p :: before, first, after, rfl,
        List.forall_mem_cons.mpr ⟨fun e he => hp ⟨e, he⟩, hbefore⟩, hfirst⟩

/-! ## Reading one option -/

def readValue (ids : IdText) (name : String) :
    (type : ParameterType display) → ApplicationCommandInteractionValue → Except Error type.Value
  | .string, value => fit name "String" (stringVariant value)
  | .boolean, value => fit name "bool" (booleanVariant value)
  | .integer, value => fit name "i64" (integerVariant value)
  | .number, value => fit name "f64" (numberVariant value)
  | .id type, value => fit name type.expected ((stringVariant value).bind (ids.parse type))
  | .choice e, value => e.select name (fit name e.kind.expected (e.kind.variant value))

section Reading

variable {ids : IdText} {options : CommandOptions} {name : String}

theorem option_missing (type : ParameterType display) (h : options.get name = none) :
    (type.option ids).extract options name = .error (.missingOption name) := by
  cases type with
  | string => exact scalar_missing h
  | boolean => exact scalar_missing h
  | integer => exact scalar_missing h
  | number => exact scalar_missing h
  | id type => exact scalar_missing h
  | choice e =>
    show e.option.extract options name = _
    rw [e.option_extract, scalar_missing h]
    rfl

theorem option_present (type : ParameterType display) {option : Submitted} (h : options.get name = some option) :
    (type.option ids).extract options name =
      if option.kind = type.kind then
        match option.value with
        | none => .error (.invalidOption name type.expected)
        | some value => readValue ids name type value
      else .error (.invalidOption name type.expected) := by
  cases type with
  | string => exact scalar_present h
  | boolean => exact scalar_present h
  | integer => exact scalar_present h
  | number => exact scalar_present h
  | id type => exact scalar_present h
  | choice e =>
    refine (e.option_extract options name).trans ?_
    rw [scalar_present h]
    show _ = ((if option.kind = e.optionKind then
      match option.value with
      | none => .error (.invalidOption name e.kind.expected)
      | some value => e.select name (fit name e.kind.expected (e.kind.variant value))
      else .error (.invalidOption name e.kind.expected)) : Except Error e.Value)
    by_cases hk : option.kind = e.optionKind
    · rw [if_pos hk, if_pos hk]
      cases option.value <;> rfl
    · rw [if_neg hk, if_neg hk]
      rfl

theorem option_kind (ids : IdText) (type : ParameterType display) : (type.option ids).kind = type.kind := by
  cases type <;> rfl

theorem descriptor_kind (ids : IdText) (p : OptionParameter display) : (p.descriptor ids).kind = p.type.kind := by
  show (wrappedOption p.required (p.type.option ids)).kind = p.type.kind
  rw [← option_kind ids]
  cases p.required <;> rfl

theorem readValue_otherVariant (type : ParameterType display) {value : ApplicationCommandInteractionValue}
    (h : scalarOf value ≠ type.scalar) : readValue ids name type value = .error (.invalidOption name type.expected) := by
  cases type with
  | choice e =>
    show e.select name (fit name e.kind.expected (e.kind.variant value)) = .error (.invalidOption name e.kind.expected)
    change scalarOf value ≠ (match e.kind with | .string => Scalar.string | .integer => .integer | .number => .number) at h
    cases hk : e.kind <;> rw [hk] at h <;> cases value <;> first | rfl | exact absurd rfl h
  | string => cases value <;> first | rfl | exact absurd rfl h
  | boolean => cases value <;> first | rfl | exact absurd rfl h
  | integer => cases value <;> first | rfl | exact absurd rfl h
  | number => cases value <;> first | rfl | exact absurd rfl h
  | id type => cases value <;> first | rfl | exact absurd rfl h

theorem choice_variant (e : ChoiceEnum display) {value : CommandChoiceValue}
    (h : scalarOf (choiceWire value) = (ParameterType.choice e).scalar) :
    e.kind.variant (choiceWire value) = some value := by
  change scalarOf (choiceWire value) = (match e.kind with | .string => Scalar.string | .integer => .integer | .number => .number) at h
  cases hk : e.kind <;> rw [hk] at h <;> cases value <;> first | rfl | cases h

theorem value_scalar (e : ChoiceEnum display) (i : e.Value) :
    scalarOf (choiceWire (e.value i)) = (ParameterType.choice e).scalar := by
  have h := e.registered_value i
  unfold ChoiceEnum.registered choiceValue at h
  show _ = (match e.kind with | .string => Scalar.string | .integer => .integer | .number => .number)
  split at h
  · rename_i hk _; rw [hk, ← Except.ok.inj h]; rfl
  · rename_i hk _; rw [hk, ← Except.ok.inj h]; rfl
  · rename_i hk _; rw [hk, ← Except.ok.inj h]; rfl
  · rename_i hk _; rw [hk, ← Except.ok.inj h]; rfl
  · rename_i hk _; rw [hk, ← Except.ok.inj h]; rfl
  · cases h

theorem choice_not_boolean (e : ChoiceEnum display) : Scalar.boolean ≠ (ParameterType.choice e).scalar := by
  show _ ≠ (match e.kind with | .string => Scalar.string | .integer => .integer | .number => .number)
  cases e.kind <;> exact fun h => by cases h

/-- What is submitted for a value is read as it. -/
theorem readValue_encode (hids : ids.Lawful) (type : ParameterType display) (value : type.Value) :
    readValue ids name type (encodeValue ids type value) = .ok value := by
  cases type with
  | string => rfl
  | boolean => rfl
  | integer => rfl
  | number => rfl
  | id type => exact congrArg (fit name type.expected) (hids type value)
  | choice e =>
    show e.select name (fit name e.kind.expected (e.kind.variant (choiceWire (e.value value)))) = _
    rw [choice_variant e (value_scalar e value)]
    exact e.select_value name value

end Reading

/-! ## Errors -/

/-- A value that is read as none of the type's is malformed. -/
theorem readValue_error {ids : IdText} {options : CommandOptions} {name : String} {type : ParameterType display}
    {option : Submitted} {value : ApplicationCommandInteractionValue} {error : Error}
    (hg : options.get name = some option) (hk : option.kind = type.kind) (hv : option.value = some value)
    (h : readValue ids name type value = .error error) : Malformed ids options name type error := by
  by_cases hs : scalarOf value = type.scalar
  · cases type with
    | string => cases value <;> cases h <;> cases hs
    | boolean => cases value <;> cases h <;> cases hs
    | integer => cases value <;> cases h <;> cases hs
    | number => cases value <;> cases h <;> cases hs
    | id type =>
      cases value with
      | integer => cases hs
      | number => cases hs
      | boolean => cases hs
      | string text =>
        change fit name type.expected (ids.parse type text) = .error error at h
        cases hp : ids.parse type text with
        | some id => rw [hp] at h; cases h
        | none =>
          rw [hp] at h
          cases h
          exact .unparsable hg hk hv hp
    | choice e =>
      obtain ⟨choice, rfl⟩ : ∃ choice, value = choiceWire choice := by
        cases value with
        | string text => exact ⟨.string text, rfl⟩
        | integer n => exact ⟨.integer n, rfl⟩
        | number x => exact ⟨.number x, rfl⟩
        | boolean => exact absurd hs (choice_not_boolean e)
      change e.select name (fit name e.kind.expected (e.kind.variant (choiceWire choice))) = .error error at h
      rw [choice_variant e hs] at h
      obtain ⟨rfl, hn⟩ := ChoiceEnum.select_error h
      exact .unregistered hg hk hv hs hn
  · rw [readValue_otherVariant type hs] at h
    cases h
    exact .otherVariant hg hk hv hs

theorem option_error {ids : IdText} {options : CommandOptions} {name : String} {type : ParameterType display}
    {error : Error} : (type.option ids).extract options name = .error error ↔ Malformed ids options name type error := by
  constructor
  · intro h
    cases hg : options.get name with
    | none =>
      rw [option_missing type hg] at h
      cases h
      exact .missing hg
    | some option =>
      rw [option_present type hg] at h
      by_cases hk : option.kind = type.kind
      · rw [if_pos hk] at h
        cases hv : option.value with
        | none =>
          rw [hv] at h
          cases h
          exact .noValue hg hk hv
        | some value =>
          rw [hv] at h
          exact readValue_error hg hk hv h
      · rw [if_neg hk] at h
        cases h
        exact .otherKind hg hk
  · intro h
    cases h with
    | missing hg => exact option_missing type hg
    | otherKind hg hk => rw [option_present type hg, if_neg hk]
    | noValue hg hk hv => rw [option_present type hg, if_pos hk, hv]
    | otherVariant hg hk hv hs =>
      rw [option_present type hg, if_pos hk, hv]
      exact readValue_otherVariant type hs
    | @unparsable type option text hg hk hv hp =>
      have hk' : option.kind = (@ParameterType.id display type).kind := hk
      rw [option_present (.id type) hg, if_pos hk', hv]
      exact congrArg (fit name type.expected) hp
    | @unregistered e option value hg hk hv hs hn =>
      have hk' : option.kind = (ParameterType.choice e).kind := hk
      rw [option_present (.choice e) hg, if_pos hk', hv]
      show e.select name (fit name e.kind.expected (e.kind.variant (choiceWire value))) = .error (.invalidChoice name)
      rw [choice_variant e hs]
      exact e.select_none name hn

theorem parameter_error {ids : IdText} {options : CommandOptions} {p : OptionParameter display} {error : Error} :
    (p.option ids).extract options p.name = .error error ↔ Fault ids options p error := by
  obtain ⟨name, description, type, required, choices, autocomplete, min, max, minLength, maxLength⟩ := p
  cases required with
  | true =>
    show (type.option ids).extract options name = .error error ↔ _
    rw [option_error]
    exact ⟨fun h => ⟨h, .inl rfl⟩, fun h => h.1⟩
  | false =>
    show (optionalOption (type.option ids)).extract options name = .error error ↔ _
    rw [optional_error, option_error]
    refine ⟨fun ⟨hg, h⟩ => ⟨h, .inr hg⟩, fun ⟨h, hg⟩ => ⟨hg.resolve_left (fun h => by cases h), h⟩⟩

/-- The extraction fails exactly at the first parameter at fault. -/
theorem extractAll_error {ids : IdText} {options : CommandOptions} {error : Error} :
    ∀ {parameters : List (OptionParameter display)}, extractAll ids options parameters = .error error ↔
      FirstFault ids options parameters error := by
  intro parameters
  induction parameters with
  | nil =>
    refine ⟨fun h => (by cases h), fun ⟨before, p, after, h, _⟩ => ?_⟩
    cases before <;> cases h
  | cons p rest ih =>
    unfold extractAll
    constructor
    · intro h
      split at h
      · rename_i e he
        cases h
        exact ⟨[], p, rest, rfl, fun _ hq => (by cases hq), parameter_error.mp he⟩
      · rename_i value hv
        have hp : ∀ e, ¬ Fault ids options p e := by
          intro e hf
          rw [parameter_error.mpr hf] at hv
          cases hv
        split at h
        · rename_i e he
          cases h
          obtain ⟨before, q, after, rfl, hbefore, hq⟩ := ih.mp he
          exact ⟨p :: before, q, after, rfl, List.forall_mem_cons.mpr ⟨hp, hbefore⟩, hq⟩
        · cases h
    · intro ⟨before, q, after, hsplit, hbefore, hq⟩
      cases before with
      | nil =>
        cases hsplit
        rw [parameter_error.mpr hq]
      | cons first before =>
        cases hsplit
        obtain ⟨hp, hbefore⟩ := List.forall_mem_cons.mp hbefore
        rw [ih.mpr ⟨before, q, after, rfl, hbefore, hq⟩]
        cases hv : (p.option ids).extract options p.name with
        | ok value => rfl
        | error e => exact absurd (parameter_error.mp hv) (hp e)

/-! ## Round trips -/

theorem get_unique {options : CommandOptions} {name : String} {option : Submitted} (hm : option ∈ options.options)
    (hn : option.name = name) (hu : ∀ other ∈ options.options, other.name = name → other = option) :
    options.get name = some option :=
  find_unique hm (beq_iff_eq.mpr hn) fun other ho hno => hu other ho (beq_iff_eq.mp hno)

theorem get_none {options : CommandOptions} {name : String} (h : ∀ other ∈ options.options, other.name ≠ name) :
    options.get name = none := by
  refine List.find?_eq_none.mpr fun other ho => ?_
  exact fun hb => h other ho (beq_iff_eq.mp hb)

theorem submits_cons {ids : IdText} {p : OptionParameter display} {rest : List (OptionParameter display)} {value : p.Value}
    {values : Values rest} {encoded : List Submitted} (h : Submits ids (p :: rest) (value, values) encoded) :
    (given p.required value = none ∧ Submits ids rest values encoded) ∨
      ∃ v option others, given p.required value = some v ∧ encoded = option :: others ∧ Encodes ids p v option ∧
        Submits ids rest values others := by
  simp only [Submits] at h
  cases hg : given p.required value with
  | none =>
    rw [hg] at h
    exact .inl ⟨rfl, h⟩
  | some v =>
    rw [hg] at h
    obtain ⟨option, others, he, hp, hrest⟩ := h
    exact .inr ⟨v, option, others, rfl, he, hp, hrest⟩

theorem submits_names {ids : IdText} : ∀ {parameters : List (OptionParameter display)} {values : Values parameters}
    {encoded : List Submitted}, Submits ids parameters values encoded →
    ∀ option ∈ encoded, option.name ∈ parameters.map (·.name) := by
  intro parameters
  induction parameters with
  | nil =>
    intro values encoded h option hm
    rw [show encoded = [] from h] at hm
    cases hm
  | cons p rest ih =>
    intro ⟨value, values⟩ encoded h option hm
    rcases submits_cons h with ⟨-, hrest⟩ | ⟨v, first, others, -, rfl, hfirst, hrest⟩
    · exact List.mem_cons_of_mem _ (ih hrest option hm)
    · rcases List.mem_cons.mp hm with rfl | hm
      · rw [hfirst.name]
        exact List.mem_cons_self ..
      · exact List.mem_cons_of_mem _ (ih hrest option hm)

/-- The option that submits a value is extracted as that value. -/
theorem parameter_given {ids : IdText} (hids : ids.Lawful) {options : CommandOptions} {p : OptionParameter display}
    {wrapped : p.Value} {value : p.type.Value} {option : Submitted} (hv : given p.required wrapped = some value)
    (he : Encodes ids p value option) (hg : options.get p.name = some option) :
    (p.option ids).extract options p.name = .ok wrapped := by
  have hk : option.kind = p.type.kind := he.kind.trans (descriptor_kind ids p)
  have htype : (p.type.option ids).extract options p.name = .ok value := by
    rw [option_present p.type hg, if_pos hk, he.value]
    exact readValue_encode hids p.type value
  obtain ⟨name, description, type, required, choices, autocomplete, min, max, minLength, maxLength⟩ := p
  cases required with
  | true =>
    obtain rfl := Option.some.inj hv
    exact htype
  | false =>
    obtain rfl : wrapped = some value := hv
    exact optional_some htype hg

theorem parameter_absent {ids : IdText} {options : CommandOptions} {p : OptionParameter display} {wrapped : p.Value}
    (hv : given p.required wrapped = none) (hg : options.get p.name = none) :
    (p.option ids).extract options p.name = .ok wrapped := by
  obtain ⟨name, description, type, required, choices, autocomplete, min, max, minLength, maxLength⟩ := p
  cases required with
  | true => cases hv
  | false =>
    obtain rfl : wrapped = none := hv
    exact optional_none.mpr hg

/-- Whatever the order, and whatever else is submitted under other names. -/
theorem extractAll_submits {ids : IdText} (hids : ids.Lawful) {submitted : List Submitted} :
    ∀ {parameters : List (OptionParameter display)} {values : Values parameters} {encoded others : List Submitted},
      (parameters.map (·.name)).Nodup → Submits ids parameters values encoded →
      (∀ option ∈ others, option.name ∉ parameters.map (·.name)) → submitted.Perm (encoded ++ others) →
      extractAll ids ⟨submitted⟩ parameters = .ok values := by
  intro parameters
  induction parameters with
  | nil => intro values encoded others _ _ _ _; rfl
  | cons p rest ih =>
    intro ⟨value, values⟩ encoded others hnodup hs hothers hperm
    obtain ⟨hfresh, hnodup⟩ := List.nodup_cons.mp hnodup
    have hrestOthers : ∀ option ∈ others, option.name ∉ rest.map (·.name) :=
      fun option ho hm => hothers option ho (List.mem_cons_of_mem _ hm)
    have hpOthers : ∀ option ∈ others, option.name ≠ p.name :=
      fun option ho hn => hothers option ho (hn ▸ List.mem_cons_self ..)
    rcases submits_cons hs with ⟨hv, hrest⟩ | ⟨v, option, encodedRest, hv, rfl, he, hrest⟩
    · have hg : CommandOptions.get ⟨submitted⟩ p.name = none := by
        refine get_none fun other ho hn => ?_
        rcases List.mem_append.mp (hperm.mem_iff.mp ho) with hm | hm
        · have := submits_names hrest other hm
          rw [hn] at this
          exact hfresh this
        · exact hpOthers other hm hn
      unfold extractAll
      rw [parameter_absent hv hg, ih hnodup hrest hrestOthers hperm]
    · have hname : option.name = p.name := he.name
      have hg : CommandOptions.get ⟨submitted⟩ p.name = some option := by
        refine get_unique (hperm.mem_iff.mpr (List.mem_cons_self ..)) hname fun other ho hn => ?_
        rcases List.mem_append.mp (hperm.mem_iff.mp ho) with hm | hm
        · rcases List.mem_cons.mp hm with rfl | hm
          · rfl
          · have := submits_names hrest other hm
            rw [hn] at this
            exact absurd this hfresh
        · exact absurd hn (hpOthers other hm)
      -- for the other parameters this option is one of the others
      have hperm' : submitted.Perm (encodedRest ++ option :: others) :=
        hperm.trans List.perm_middle.symm
      have hothers' : ∀ other ∈ option :: others, other.name ∉ rest.map (·.name) := by
        refine List.forall_mem_cons.mpr ⟨?_, hrestOthers⟩
        rw [hname]
        exact hfresh
      unfold extractAll
      rw [parameter_given hids hv he hg, ih hnodup hrest hothers' hperm']

/-- The generated handler calls its function with the assignment that was submitted, in
    any order and among any other options. For any submission at all, if a parameter is at
    fault, it returns the error of the first one, whatever its function would do. -/
theorem typed_extraction (ids : IdText) (hids : ids.Lawful) (parameters : List (OptionParameter display))
    (hnames : (parameters.map (·.name)).Nodup) (function : Context → Values parameters → CommandFuture D) :
    (∀ (values : Values parameters) (encoded others submitted : List Submitted), Submits ids parameters values encoded →
        (∀ option ∈ others, option.name ∉ parameters.map (·.name)) → submitted.Perm (encoded ++ others) →
        extractAll ids ⟨submitted⟩ parameters = .ok values ∧
          ∀ (ctx : Context) (data : D), ctx.commandOptions = submitted →
            adapter ids parameters function ctx data = function ctx values data) ∧
    ∀ ctx : Context,
      ((∃ p ∈ parameters, ∃ e, Fault ids ⟨ctx.commandOptions⟩ p e) →
        ∃ error, FirstFault ids ⟨ctx.commandOptions⟩ parameters error) ∧
      ∀ error, FirstFault ids ⟨ctx.commandOptions⟩ parameters error →
        extractAll ids ⟨ctx.commandOptions⟩ parameters = .error error ∧
          ∀ data : D, adapter ids parameters function ctx data = (.error error, data) := by
  refine ⟨fun values encoded others submitted hs hothers hperm => ?_, fun ctx => ⟨exists_firstFault, fun error hf => ?_⟩⟩
  · have h := extractAll_submits hids hnames hs hothers hperm
    refine ⟨h, fun ctx data hctx => ?_⟩
    unfold adapter
    rw [hctx, h]
  · have h := extractAll_error.mpr hf
    refine ⟨h, fun data => ?_⟩
    unfold adapter
    rw [h]

def decimalIds : IdText where
  parse _ text := text.toNat?.bind fun n => if n < UInt64.size then some (UInt64.ofNat n) else none
  display _ id := id.toNat.repr

theorem decimalIds_lawful : decimalIds.Lawful := by
  intro type id
  show (id.toNat.repr.toNat?.bind fun n => if n < UInt64.size then some (UInt64.ofNat n) else none) = some id
  rw [Nat.toNat?_repr, Option.bind_some, if_pos id.toNat_lt, UInt64.ofNat_toNat]

/-- A text, an id and an optional text left out; the id comes first, then a stranger. -/
theorem typed_extraction_report :
    let plain := fun (name : String) (type : ParameterType fun _ => "") (required : Bool) =>
      (⟨name, "", type, required, .none, false, none, none, none, none⟩ : OptionParameter fun _ => "")
    let parameters := [plain "text" .string true, plain "target" (.id .user) true, plain "note" .string false]
    let text : Submitted := ⟨"text", .string, some (.string "hello"), [], none⟩
    let target : Submitted := ⟨"target", .user, some (.string "123"), [], none⟩
    let days : Submitted := ⟨"days", .integer, some (.integer 7), [], none⟩
    extractAll decimalIds ⟨[target, days, text]⟩ parameters =
      .ok ("hello", (123 : Snowflake), (none : Option String), ()) := by
  intro plain parameters text target days
  have hs : Submits decimalIds parameters ("hello", (123 : Snowflake), (none : Option String), ()) [text, target] :=
    ⟨_, _, rfl, ⟨rfl, rfl, rfl⟩, _, _, rfl, ⟨rfl, rfl, by decide⟩, rfl⟩
  have hperm : [target, days, text].Perm ([text, target] ++ [days]) :=
    @List.perm_append_comm _ [target, days] [text]
  exact ((@typed_extraction _ Unit decimalIds decimalIds_lawful parameters (by decide)
    fun _ _ data => (.ok (), data)).1 _ _ _ _ hs (by decide) hperm).1

end GloamCommands.Options
