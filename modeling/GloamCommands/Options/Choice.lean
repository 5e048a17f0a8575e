/-
  GloamCommands.Options.Choice — enums that derive `CommandChoice`
  (crates/gloam-commands-macros/src/choice.rs).

  The derive reads the variants with their optional literal values, infers one scalar
  kind for all of them, and refuses two that would be the same choice for Discord. What
  it generates reads the scalar and returns the first variant it equals.

  A value of a derived enum is the index of its variant. `display` is how an `f64` is
  formatted: the duplicate check compares texts, the generated code compares numbers,
  and numbers that are equal have one text (`keyOf_accepts`).
  - `find_value`: the value a variant is registered with finds that variant.
-/

import GloamCommands.Lib.Keyed
import GloamCommands.Options.Extract
import Mathlib.Data.List.FinRange

namespace GloamCommands.Options

open Lib (F64 find_unique)

/-! ## The derive -/

inductive ParsedValue where
  | string (value : String)
  | integer (value : Int)
  | number (value : F64)
  deriving DecidableEq, Repr

structure VariantChoice where
  variant : String
  name : String
  value : Option ParsedValue
  deriving DecidableEq, Repr

inductive ChoiceKind where
  | string
  | integer
  | number
  deriving DecidableEq, Repr

def maxChoices : Nat := 25

def maxChoiceStringValue : Nat := 100

def checkVariant (choice : VariantChoice) : Except String Unit :=
  if choice.name.length = 0 ∨ 100 < choice.name.length then
    .error "Discord choice names must contain between 1 and 100 characters"
  else
    match choice.value with
    | none =>
      if maxChoiceStringValue < choice.variant.length then
        .error "Discord string choice values must contain at most 100 characters"
      else .ok ()
    | some (.string value) =>
      if maxChoiceStringValue < value.length then
        .error "Discord string choice values must contain at most 100 characters"
      else .ok ()
    | some (.integer value) =>
      if value < -9007199254740991 ∨ 9007199254740991 < value then
        .error "Discord integer option bounds must be between -9007199254740991 and 9007199254740991"
      else .ok ()
    | some (.number value) =>
      if !value.isFinite || !((F64.ofInt (-9007199254740992)).le value && value.le (F64.ofInt 9007199254740992)) then
        .error "Discord number option bounds must be between -9007199254740992 and 9007199254740992"
      else .ok ()

def checkVariants : List VariantChoice → Except String Unit
  | [] => .ok ()
  | choice :: rest =>
    match checkVariant choice with
    | .error error => .error error
    | .ok () => checkVariants rest

def inferKind (choices : List VariantChoice) : Except String ChoiceKind :=
  let hasDefault := choices.any fun choice => choice.value == none
  let hasString := choices.any fun choice => match choice.value with | some (.string _) => true | _ => false
  let hasInteger := choices.any fun choice => match choice.value with | some (.integer _) => true | _ => false
  let hasNumber := choices.any fun choice => match choice.value with | some (.number _) => true | _ => false
  if (hasDefault || hasString) && (hasInteger || hasNumber) then
    .error "command-choice enum values must all use the same scalar kind; omitted values are string choices"
  else if hasDefault || hasString then .ok .string
  else if hasNumber then .ok .number
  else .ok .integer

/-- The value a variant is registered with (`descriptor_tokens`). -/
def choiceValue (choice : VariantChoice) (kind : ChoiceKind) : Except String CommandChoiceValue :=
  match kind, choice.value with
  | .string, none => .ok (.string choice.variant)
  | .string, some (.string value) => .ok (.string value)
  | .integer, some (.integer value) => .ok (.integer value)
  | .number, some (.integer value) => .ok (.number (F64.ofInt value))
  | .number, some (.number value) => .ok (.number value)
  | _, _ => .error "command-choice enum values do not match the inferred choice kind"

def numberKey (display : F64 → String) (value : F64) : String :=
  if value.eq F64.zero then "n:0" else "n:" ++ display value

def valueKey (display : F64 → String) (choice : VariantChoice) (kind : ChoiceKind) : Except String String :=
  match kind, choice.value with
  | .string, none => .ok choice.variant
  | .string, some (.string value) => .ok value
  | .integer, some (.integer value) => .ok ("i:" ++ toString value)
  | .number, some (.integer value) => .ok (numberKey display (F64.ofInt value))
  | .number, some (.number value) => .ok (numberKey display value)
  | _, _ => .error "command-choice enum values do not match the inferred choice kind"

/-- The loop of `validate_duplicates`, with what it has seen. -/
def validateDuplicates (display : F64 → String) (kind : ChoiceKind) (names values : List String) :
    List VariantChoice → Except String Unit
  | [] => .ok ()
  | choice :: rest =>
    if choice.name ∈ names then .error "duplicate Discord choice name"
    else
      match valueKey display choice kind with
      | .error error => .error error
      | .ok value =>
        if value ∈ values then .error "duplicate Discord choice value"
        else validateDuplicates display kind (choice.name :: names) (value :: values) rest

/-- What `expand` does before it generates code. -/
def deriveChoice (display : F64 → String) (choices : List VariantChoice) : Except String ChoiceKind :=
  if choices = [] then .error "command-choice enums cannot be empty"
  else if maxChoices < choices.length then .error "Discord command options support at most 25 choices"
  else
    match checkVariants choices with
    | .error error => .error error
    | .ok () =>
      match inferKind choices with
      | .error error => .error error
      | .ok kind =>
        match validateDuplicates display kind [] [] choices with
        | .error error => .error error
        | .ok () => .ok kind

/-- An enum the derive accepts. -/
structure ChoiceEnum (display : F64 → String) where
  variants : List VariantChoice
  kind : ChoiceKind
  derived : deriveChoice display variants = .ok kind

/-! ## What it generates -/

/-- The comparison of a generated branch: `match` for texts and integers, `==` for numbers. -/
def accepts : CommandChoiceValue → CommandChoiceValue → Bool
  | .string value, .string submitted => submitted == value
  | .integer value, .integer submitted => submitted == value
  | .number value, .number submitted => submitted.eq value
  | _, _ => false

namespace ChoiceEnum

variable {display : F64 → String}

abbrev Value (e : ChoiceEnum display) : Type := Fin e.variants.length

def registered (e : ChoiceEnum display) (i : e.Value) : Except String CommandChoiceValue :=
  choiceValue (e.variants.get i) e.kind

def find (e : ChoiceEnum display) (submitted : CommandChoiceValue) : Option e.Value :=
  (List.finRange e.variants.length).find? fun i =>
    match e.registered i with
    | .error _ => false
    | .ok value => accepts value submitted

def optionKind (e : ChoiceEnum display) : ApplicationCommandOptionType :=
  match e.kind with
  | .string => stringOption.kind
  | .integer => i64Option.kind
  | .number => f64Option.kind

def branches {α : Type} (e : ChoiceEnum display) (scalar : CommandOption α) (choice : α → CommandChoiceValue)
    (options : CommandOptions) (name : String) : Except Error e.Value :=
  match scalar.extract options name with
  | .error error => .error error
  | .ok value =>
    match e.find (choice value) with
    | some i => .ok i
    | none => .error (.invalidChoice name)

def option (e : ChoiceEnum display) : CommandOption e.Value where
  kind := e.optionKind
  extract :=
    match e.kind with
    | .string => e.branches stringOption .string
    | .integer => e.branches i64Option .integer
    | .number => e.branches f64Option .number

end ChoiceEnum

/-! ## Accepted variants -/

section Accepted

variable {display : F64 → String} {choice : VariantChoice} {kind : ChoiceKind}

/-- The text of a registered value in the duplicate check. -/
def keyOf (display : F64 → String) : CommandChoiceValue → String
  | .string value => value
  | .integer value => "i:" ++ toString value
  | .number value => numberKey display value

theorem valueKey_value {value : CommandChoiceValue} (h : choiceValue choice kind = .ok value) :
    valueKey display choice kind = .ok (keyOf display value) := by
  unfold choiceValue at h
  unfold valueKey
  split at h <;> cases h <;> rfl

theorem valueKey_ok {key : String} (h : valueKey display choice kind = .ok key) :
    ∃ value, choiceValue choice kind = .ok value := by
  unfold valueKey at h
  unfold choiceValue
  split at h <;> cases h <;> exact ⟨_, rfl⟩

/-- Values that a generated comparison takes for the same have one text. -/
theorem keyOf_accepts {value submitted : CommandChoiceValue} (h : accepts value submitted = true) :
    keyOf display value = keyOf display submitted := by
  unfold accepts at h
  split at h
  · rw [beq_iff_eq.mp h]
  · rw [beq_iff_eq.mp h]
  · rename_i value submitted
    show numberKey display value = numberKey display submitted
    rcases F64.eq_cases h with rfl | ⟨hs, hv⟩
    · rfl
    · unfold numberKey
      rw [if_pos hs, if_pos hv]
  · cases h

theorem checkVariants_ok {choices : List VariantChoice} (h : checkVariants choices = .ok ()) :
    ∀ choice ∈ choices, checkVariant choice = .ok () := by
  induction choices with
  | nil => intro choice hc; cases hc
  | cons first rest ih =>
    unfold checkVariants at h
    split at h
    · cases h
    · rename_i hfirst
      intro choice hc
      rcases List.mem_cons.mp hc with rfl | hc
      · exact hfirst
      · exact ih h choice hc

/-- A registered number is finite, so it equals itself. -/
theorem choiceValue_accepts {value : CommandChoiceValue} (hc : checkVariant choice = .ok ())
    (h : choiceValue choice kind = .ok value) : accepts value value = true := by
  unfold checkVariant at hc
  split at hc
  · cases hc
  unfold choiceValue at h
  split at h
  · cases h; exact beq_self_eq_true _
  · cases h; exact beq_self_eq_true _
  · cases h; exact beq_self_eq_true _
  · rename_i n hv
    cases h
    rw [hv] at hc
    dsimp only at hc
    split at hc
    · cases hc
    · exact F64.eq_self (F64.not_nan_of_finite (F64.ofInt_finite (by omega)))
  · rename_i x hv
    cases h
    rw [hv] at hc
    dsimp only at hc
    split at hc
    · cases hc
    · rename_i hfinite
      simp only [Bool.or_eq_true, Bool.not_eq_true', not_or, Bool.not_eq_false] at hfinite
      exact F64.eq_self (F64.not_nan_of_finite hfinite.1)
  · cases h

theorem validateDuplicates_ok {choices : List VariantChoice} : ∀ {names values : List String},
    validateDuplicates display kind names values choices = .ok () →
    (∀ choice ∈ choices, ∃ key, valueKey display choice kind = .ok key ∧ key ∉ values) ∧
      choices.Pairwise fun a b => valueKey display a kind ≠ valueKey display b kind := by
  induction choices with
  | nil => exact fun _ => ⟨fun _ hc => (by cases hc), List.Pairwise.nil⟩
  | cons choice rest ih =>
    intro names values h
    unfold validateDuplicates at h
    split at h
    · cases h
    split at h
    · cases h
    rename_i key hk
    split at h
    · cases h
    rename_i hnew
    obtain ⟨hrest, hpair⟩ := ih h
    refine ⟨fun c hc => ?_, List.pairwise_cons.mpr ⟨fun c hc heq => ?_, hpair⟩⟩
    · rcases List.mem_cons.mp hc with rfl | hc
      · exact ⟨key, hk, hnew⟩
      · obtain ⟨key', hk', hn⟩ := hrest c hc
        exact ⟨key', hk', fun hm => hn (List.mem_cons_of_mem _ hm)⟩
    · obtain ⟨key', hk', hn⟩ := hrest c hc
      rw [hk, hk'] at heq
      cases heq
      exact hn (List.mem_cons_self ..)

theorem deriveChoice_ok {choices : List VariantChoice} (h : deriveChoice display choices = .ok kind) :
    checkVariants choices = .ok () ∧ validateDuplicates display kind [] [] choices = .ok () := by
  unfold deriveChoice at h
  split at h
  · cases h
  split at h
  · cases h
  split at h
  · cases h
  rename_i hc
  split at h
  · cases h
  split at h
  · cases h
  rename_i hd
  cases h
  exact ⟨hc, hd⟩

end Accepted

/-- The scalar a derived enum reads, as a choice value. -/
def ChoiceKind.variant : ChoiceKind → ApplicationCommandInteractionValue → Option CommandChoiceValue
  | string, value => (stringVariant value).map .string
  | integer, value => (integerVariant value).map .integer
  | number, value => (numberVariant value).map .number

def ChoiceKind.expected : ChoiceKind → String
  | string => "String"
  | integer => "i64"
  | number => "f64"

namespace ChoiceEnum

variable {display : F64 → String}

/-- What is left to do with the value of the scalar. -/
def select (e : ChoiceEnum display) (name : String) : Except Error CommandChoiceValue → Except Error e.Value
  | .error error => .error error
  | .ok value =>
    match e.find value with
    | some i => .ok i
    | none => .error (.invalidChoice name)

theorem branches_select {α : Type} (e : ChoiceEnum display) (kind : ApplicationCommandOptionType)
    (variant : ApplicationCommandInteractionValue → Option α) (expected : String) (choice : α → CommandChoiceValue)
    (options : CommandOptions) (name : String) :
    e.branches (scalarOption kind variant expected) choice options name =
      e.select name ((scalarOption kind (fun value => (variant value).map choice) expected).extract options name) := by
  rw [scalar_map]
  unfold branches
  cases (scalarOption kind variant expected).extract options name <;> rfl

/-- A derived enum is extracted as its scalar, and then looked up. -/
theorem option_extract (e : ChoiceEnum display) (options : CommandOptions) (name : String) :
    e.option.extract options name =
      e.select name ((scalarOption e.optionKind e.kind.variant e.kind.expected).extract options name) := by
  unfold option optionKind
  cases e.kind with
  | string => exact e.branches_select .string stringVariant "String" .string options name
  | integer => exact e.branches_select .integer integerVariant "i64" .integer options name
  | number => exact e.branches_select .number numberVariant "f64" .number options name

theorem registered_ok (e : ChoiceEnum display) (i : e.Value) : ∃ value, e.registered i = .ok value := by
  obtain ⟨key, hk, -⟩ := (validateDuplicates_ok (deriveChoice_ok e.derived).2).1 (e.variants.get i) (List.get_mem _ _)
  exact valueKey_ok hk

def value (e : ChoiceEnum display) (i : e.Value) : CommandChoiceValue :=
  match h : e.registered i with
  | .ok value => value
  | .error _ => absurd h (by obtain ⟨value, hv⟩ := e.registered_ok i; rw [hv]; exact fun hc => by cases hc)

theorem registered_value (e : ChoiceEnum display) (i : e.Value) : e.registered i = .ok (e.value i) := by
  unfold value
  split
  · assumption
  · rename_i error h
    obtain ⟨value, hv⟩ := e.registered_ok i
    rw [hv] at h
    cases h

theorem accepts_value (e : ChoiceEnum display) (i : e.Value) : accepts (e.value i) (e.value i) = true :=
  choiceValue_accepts (checkVariants_ok (deriveChoice_ok e.derived).1 _ (List.get_mem _ _)) (e.registered_value i)

theorem value_inj (e : ChoiceEnum display) {i j : e.Value} (h : accepts (e.value i) (e.value j) = true) : i = j := by
  have hpair := (validateDuplicates_ok (deriveChoice_ok e.derived).2).2
  have hkey : valueKey display (e.variants.get i) e.kind = valueKey display (e.variants.get j) e.kind := by
    rw [valueKey_value (e.registered_value i), valueKey_value (e.registered_value j), keyOf_accepts h]
  rw [List.pairwise_iff_getElem] at hpair
  rcases Nat.lt_trichotomy i.val j.val with hlt | heq | hgt
  · exact absurd hkey (hpair i j i.isLt j.isLt hlt)
  · exact Fin.ext heq
  · exact absurd hkey.symm (hpair j i j.isLt i.isLt hgt)

theorem find_some {e : ChoiceEnum display} {submitted : CommandChoiceValue} {i : e.Value}
    (h : e.find submitted = some i) : accepts (e.value i) submitted = true := by
  have := List.find?_some h
  rwa [e.registered_value i] at this

theorem find_value (e : ChoiceEnum display) (i : e.Value) : e.find (e.value i) = some i := by
  refine find_unique (List.mem_finRange i) ?_ fun j _ hj => ?_
  · rw [e.registered_value i]
    exact e.accepts_value i
  · rw [e.registered_value j] at hj
    exact e.value_inj hj

/-- A value that no variant is registered with. -/
theorem find_none {e : ChoiceEnum display} {submitted : CommandChoiceValue} :
    e.find submitted = none ↔ ∀ i : e.Value, accepts (e.value i) submitted = false := by
  constructor
  · intro h i
    have := List.find?_eq_none.mp h i (List.mem_finRange i)
    rw [e.registered_value i] at this
    simpa using this
  · intro h
    cases hf : e.find submitted with
    | none => rfl
    | some i =>
      have := find_some hf
      rw [h i] at this
      cases this

theorem select_value (e : ChoiceEnum display) (name : String) (i : e.Value) :
    e.select name (.ok (e.value i)) = .ok i := by
  simp only [select, e.find_value]

theorem select_none (e : ChoiceEnum display) (name : String) {submitted : CommandChoiceValue}
    (h : ∀ i : e.Value, accepts (e.value i) submitted = false) :
    e.select name (.ok submitted) = .error (.invalidChoice name) := by
  simp only [select, find_none.mpr h]

theorem select_error {e : ChoiceEnum display} {name : String} {submitted : CommandChoiceValue} {error : Error}
    (h : e.select name (.ok submitted) = .error error) :
    error = .invalidChoice name ∧ ∀ i : e.Value, accepts (e.value i) submitted = false := by
  simp only [select] at h
  split at h
  · cases h
  · rename_i hn
    cases h
    exact ⟨rfl, find_none.mp hn⟩

end ChoiceEnum

end GloamCommands.Options
