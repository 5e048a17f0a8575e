/-
  GloamCommands.Macros.Choices — the enums that `#[derive(CommandChoice)]` accepts, from
  their syntax (crates/gloam-commands-macros/src/choice.rs).

  The derive reads one `#[choice(name = .., value = ..)]` off every variant, infers one
  scalar kind, and generates the registered choices and the branches that read a
  submitted scalar back. `Options.Choice` has these two from the variants on.
  - `expandChoice_registers`: an accepted enum registers every variant, in order, under
    its name and its literal's value (`Registers`).
  - `derived_round_trip`: and what is registered, and nothing else, is read back.
-/

import GloamCommands.Lib.Collect
import GloamCommands.Macros.Exact
import GloamCommands.Options.Choice

namespace GloamCommands.Macros

open Lib (F64 Fresh fresh_nil fresh_cons fresh_unseen map_ok collect collect_iff collect_trans)
open Options (ParsedValue VariantChoice ChoiceKind ChoiceEnum CommandOptions accepts inferKind validateDuplicates choiceValue
  checkVariant checkVariants deriveChoice maxChoiceStringValue)

/-! ## Syntax -/

structure Variant where
  ident : Ident
  attrs : List Attribute
  /-- It has no fields. -/
  isUnit : Bool

inductive DeriveData where
  | enum (variants : List Variant)
  | other

structure DeriveInput where
  /-- It has type parameters or a `where` clause. -/
  generic : Bool
  data : DeriveData

/-! ## The derive -/

def choiceAttribute (found : Option Attribute) : List Attribute → Expansion (Option Attribute)
  | [] => .ok found
  | attr :: rest =>
    if !attr.path.isIdent "choice" then choiceAttribute found rest
    else if found.isSome then .error (.message "duplicate `#[choice(...)]` attribute")
    else choiceAttribute (some attr) rest

def parseArgs : Meta → Expansion ChoiceArgs
  | .list arguments => parseChoiceArgs arguments
  | _ => .error .parse

def literal : Expr → Option Lit
  | .lit lit => some lit
  | .neg (.lit lit) => some lit
  | _ => none

def valueRefused : SynError := .message "choice values require string, integer, or number literals"

/-- A sign before a string is dropped. -/
def parseValue (expression : Expr) : Expansion ParsedValue :=
  match literal expression with
  | none => .error valueRefused
  | some (.str value) =>
    if maxChoiceStringValue < value.length then
      .error (.message "Discord string choice values must contain at most 100 characters")
    else .ok (.string value)
  | some (.int ..) => (parseIntegerBound expression).map .integer
  | some (.float ..) => (parseNumberBound expression).map .number
  | some .other => .error valueRefused

def variantValue (ident : Ident) : Option Expr → Expansion (Option ParsedValue)
  | none =>
    if maxChoiceStringValue < ident.unraw.length then
      .error (.message "Discord string choice values must contain at most 100 characters")
    else .ok none
  | some expression => (parseValue expression).map some

def parseVariant (variant : Variant) : Expansion VariantChoice :=
  if !variant.isUnit then .error (.message "command-choice enum variants must be unit variants")
  else
    match choiceAttribute none variant.attrs with
    | .error error => .error error
    | .ok none => .error (.message "command-choice variants require `#[choice(name = \"...\")]`")
    | .ok (some attr) =>
      match parseArgs attr.style with
      | .error error => .error error
      | .ok args =>
        match args.name with
        | none => .error (.message "choice variants require `name = \"...\"`")
        | some name =>
          match validateChoiceName name with
          | .error error => .error error
          | .ok () =>
            (variantValue variant.ident args.value).map fun value => ⟨variant.ident.unraw, name, value⟩

def parseVariants (variants : List Variant) : Expansion (List VariantChoice) :=
  if variants.isEmpty then .error (.message "command-choice enums cannot be empty")
  else if Options.maxChoices < variants.length then
    .error (.message "Discord command options support at most 25 choices")
  else collect parseVariant variants

def descriptor (kind : ChoiceKind) (choice : VariantChoice) : Except String CommandChoiceDescriptor :=
  (choiceValue choice kind).map fun value => ⟨choice.name, value⟩

/-! ## What a variant declares -/

inductive ValueLiteral : Expr → ParsedValue → Prop where
  | string {expression : Expr} {value : String} : literal expression = some (.str value) →
      value.length ≤ maxChoiceStringValue → ValueLiteral expression (.string value)
  | integer {expression : Expr} {value : Int} {sign : Bool} {digits : Nat} : literal expression = some (.int sign digits) →
      IntegerBound expression value → ValueLiteral expression (.integer value)
  | number {expression : Expr} {value : F64} {sign : Bool} {coefficient : Nat} {exponent : Int} :
      literal expression = some (.float sign coefficient exponent) →
      NumberBound expression value → ValueLiteral expression (.number value)

/-- The value a variant is registered with: its name when it has no literal, and of an
    integer among numbers the `f64` that is exactly it. -/
inductive RegisteredAs : ChoiceKind → Ident → Option Expr → CommandChoiceValue → Prop where
  | omitted {ident : Ident} : ident.unraw.length ≤ maxChoiceStringValue → RegisteredAs .string ident none (.string ident.unraw)
  | string {ident : Ident} {expression : Expr} {value : String} : ValueLiteral expression (.string value) →
      RegisteredAs .string ident (some expression) (.string value)
  | integer {ident : Ident} {expression : Expr} {value : Int} : ValueLiteral expression (.integer value) →
      RegisteredAs .integer ident (some expression) (.integer value)
  | widened {ident : Ident} {expression : Expr} {value : Int} {number : F64} : ValueLiteral expression (.integer value) →
      number.Exactly value → RegisteredAs .number ident (some expression) (.number number)
  | number {ident : Ident} {expression : Expr} {value : F64} : ValueLiteral expression (.number value) →
      RegisteredAs .number ident (some expression) (.number value)

structure Registers (kind : ChoiceKind) (variant : Variant) (choice : CommandChoiceDescriptor) : Prop where
  isUnit : variant.isUnit = true
  declared : ∃ arguments args,
    (variant.attrs.filter fun attr => attr.path.isIdent "choice").map Attribute.style = [.list arguments] ∧
      ChoiceEntries arguments args ∧ args.name = some choice.name ∧
      RegisteredAs kind variant.ident args.value choice.value
  name : 1 ≤ choice.name.length ∧ choice.name.length ≤ 100

/-! ## Reading the variants -/

theorem choiceAttribute_iff {attrs : List Attribute} : ∀ {found result : Option Attribute},
    choiceAttribute found attrs = .ok result ↔
      found.toList ++ attrs.filter (fun attr => attr.path.isIdent "choice") = result.toList := by
  induction attrs with
  | nil =>
    intro found result
    cases found <;> cases result <;> simp [choiceAttribute]
  | cons attr rest ih =>
    intro found result
    unfold choiceAttribute
    by_cases h : attr.path.isIdent "choice" = true
    · cases found with
      | none => simp [h, ih]
      | some old => cases result <;> simp [h]
    · simp [h, ih]

theorem parseValue_iff {expression : Expr} {value : ParsedValue} :
    parseValue expression = .ok value ↔ ValueLiteral expression value := by
  unfold parseValue
  constructor
  · intro h
    split at h
    · cases h
    · rename_i text hlit
      split at h
      · cases h
      · cases h
        exact .string hlit (by omega)
    · rename_i hlit
      obtain ⟨value, hvalue, rfl⟩ := map_ok.mp h
      exact .integer hlit ((parseIntegerBound_iff expression value).mp hvalue)
    · rename_i hlit
      obtain ⟨value, hvalue, rfl⟩ := map_ok.mp h
      exact .number hlit ((parseNumberBound_iff expression value).mp hvalue)
    · cases h
  · rintro (⟨hlit, hlength⟩ | ⟨hlit, hbound⟩ | ⟨hlit, hbound⟩)
    · simp only [hlit, if_neg (Nat.not_lt.mpr hlength)]
    · simp only [hlit, (parseIntegerBound_iff expression _).mpr hbound]
      rfl
    · simp only [hlit, (parseNumberBound_iff expression _).mpr hbound]
      rfl

theorem parseVariant_ok {variant : Variant} {choice : VariantChoice} (h : parseVariant variant = .ok choice) :
    variant.isUnit = true ∧ choice.variant = variant.ident.unraw ∧ (1 ≤ choice.name.length ∧ choice.name.length ≤ 100) ∧
      ∃ arguments args,
        (variant.attrs.filter fun attr => attr.path.isIdent "choice").map Attribute.style = [.list arguments] ∧
          ChoiceEntries arguments args ∧ args.name = some choice.name ∧
          variantValue variant.ident args.value = .ok choice.value := by
  unfold parseVariant at h
  split at h
  · cases h
  · rename_i hunit
    split at h
    · cases h
    · cases h
    · rename_i attr hattr
      split at h
      · cases h
      · rename_i args hargs
        split at h
        · cases h
        · rename_i name hname
          split at h
          · cases h
          · rename_i hlength
            obtain ⟨value, hvalue, rfl⟩ := map_ok.mp h
            have hone : variant.attrs.filter (fun attr => attr.path.isIdent "choice") = [attr] :=
              choiceAttribute_iff.mp hattr
            obtain ⟨arguments, hstyle, hentries⟩ : ∃ arguments, attr.style = .list arguments ∧ ChoiceEntries arguments args := by
              unfold parseArgs at hargs
              split at hargs
              · rename_i arguments hstyle
                exact ⟨arguments, hstyle, (parseChoiceArgs_iff arguments args).mp hargs⟩
              · cases hargs
            refine ⟨by simpa using hunit, rfl, (validateChoiceName_iff name).mp hlength, arguments, args, ?_, hentries, hname,
              hvalue⟩
            rw [hone, List.map_singleton, hstyle]

theorem variantValue_ok {ident : Ident} {expression : Option Expr} {value : Option ParsedValue}
    (h : variantValue ident expression = .ok value) :
    (expression = none ∧ value = none ∧ ident.unraw.length ≤ maxChoiceStringValue) ∨
      ∃ e parsed, expression = some e ∧ value = some parsed ∧ ValueLiteral e parsed := by
  unfold variantValue at h
  split at h
  · split at h
    · cases h
    · cases h
      exact .inl ⟨rfl, rfl, by omega⟩
  · obtain ⟨parsed, hparsed, rfl⟩ := map_ok.mp h
    exact .inr ⟨_, parsed, rfl, rfl, parseValue_iff.mp hparsed⟩

theorem parseVariant_checked {variant : Variant} {choice : VariantChoice} (h : parseVariant variant = .ok choice) :
    checkVariant choice = .ok () := by
  obtain ⟨-, hident, hname, -, args, -, -, -, hvalue⟩ := parseVariant_ok h
  unfold checkVariant
  rw [if_neg (by omega)]
  rcases variantValue_ok hvalue with ⟨-, hnone, hlength⟩ | ⟨_, parsed, -, hsome, hliteral⟩
  · rw [hnone]
    dsimp only
    rw [if_neg (by rw [hident]; omega)]
  · rw [hsome]
    cases hliteral with
    | string _ hlength => exact if_neg (by omega)
    | integer _ hbound =>
      have hrange := hbound.2
      unfold IntegerInRange minIntegerValue maxIntegerValue at hrange
      exact if_neg (by omega)
    | number _ hbound =>
      obtain ⟨hfinite, hmin, hmax⟩ := hbound.2
      unfold minNumberValue at hmin
      unfold maxNumberValue at hmax
      simp [hfinite, hmin, hmax]

theorem parsed_checked {variants : List Variant} {choices : List VariantChoice}
    (h : List.Forall₂ (fun variant choice => parseVariant variant = .ok choice) variants choices) :
    checkVariants choices = .ok () := by
  induction h with
  | nil => rfl
  | cons hfirst _ ih =>
    unfold checkVariants
    rw [parseVariant_checked hfirst]
    exact ih

theorem parseVariants_ok {variants : List Variant} {choices : List VariantChoice} (h : parseVariants variants = .ok choices) :
    1 ≤ variants.length ∧ variants.length ≤ Options.maxChoices ∧
      List.Forall₂ (fun variant choice => parseVariant variant = .ok choice) variants choices := by
  unfold parseVariants at h
  split at h
  · cases h
  · rename_i hsome
    split at h
    · cases h
    · rename_i hfew
      refine ⟨?_, by omega, collect_iff.mp h⟩
      rw [List.isEmpty_iff] at hsome
      exact List.length_pos_of_ne_nil hsome

theorem derived_of_parsed {display : F64 → String} {variants : List Variant} {choices : List VariantChoice} {kind : ChoiceKind}
    (hparse : parseVariants variants = .ok choices) (hkind : inferKind choices = .ok kind)
    (hdistinct : validateDuplicates display kind [] [] choices = .ok ()) : deriveChoice display choices = .ok kind := by
  obtain ⟨hsome, hfew, hread⟩ := parseVariants_ok hparse
  have hlength := hread.length_eq
  have hsome : choices ≠ [] := List.ne_nil_of_length_pos (by omega)
  unfold deriveChoice
  rw [if_neg hsome, if_neg (by omega), parsed_checked hread]
  simp only [hkind, hdistinct]

/-! ## The expansion -/

/-- What is generated: the scalar branches of the enum, and its `CHOICES`. -/
structure Derived (display : F64 → String) extends ChoiceEnum display where
  choices : List CommandChoiceDescriptor
  described : collect (descriptor kind) variants = .ok choices

def expandChoice (display : F64 → String) (input : DeriveInput) : Expansion (Derived display) :=
  if input.generic then .error (.message "generic command-choice enums are not supported")
  else
    match input.data with
    | .other => .error (.message "`CommandChoice` can only be derived for enums")
    | .enum variants =>
      match hparse : parseVariants variants with
      | .error error => .error error
      | .ok choices =>
        match hkind : inferKind choices with
        | .error error => .error (.message error)
        | .ok kind =>
          match hdistinct : validateDuplicates display kind [] [] choices with
          | .error error => .error (.message error)
          | .ok () =>
            match hdescribed : collect (descriptor kind) choices with
            | .error error => .error (.message error)
            | .ok described => .ok ⟨⟨choices, kind, derived_of_parsed hparse hkind hdistinct⟩, described, hdescribed⟩

section Expansion

variable {display : F64 → String}

theorem expandChoice_ok {input : DeriveInput} {derived : Derived display} (h : expandChoice display input = .ok derived) :
    ∃ variants, input.data = .enum variants ∧ parseVariants variants = .ok derived.variants := by
  unfold expandChoice at h
  split at h
  · cases h
  · split at h
    · cases h
    · rename_i variants hdata
      split at h
      · cases h
      · rename_i choices hparse
        split at h
        · cases h
        · split at h
          · cases h
          · split at h
            · cases h
            · cases h
              exact ⟨variants, hdata, hparse⟩

theorem registeredAs_of_value {variant : Variant} {choice : VariantChoice} {kind : ChoiceKind} {expression : Option Expr}
    {value : CommandChoiceValue} (hident : choice.variant = variant.ident.unraw)
    (hvalue : variantValue variant.ident expression = .ok choice.value) (h : choiceValue choice kind = .ok value) :
    RegisteredAs kind variant.ident expression value := by
  rcases variantValue_ok hvalue with ⟨rfl, hnone, hlength⟩ | ⟨e, parsed, rfl, hsome, hliteral⟩
  · unfold choiceValue at h
    rw [hnone] at h
    cases kind with
    | string =>
      cases h
      rw [hident]
      exact .omitted hlength
    | _ => cases h
  · unfold choiceValue at h
    rw [hsome] at h
    cases hliteral with
    | string hlit hlength =>
      cases kind with
      | string => cases h; exact .string (.string hlit hlength)
      | _ => cases h
    | integer hlit hbound =>
      cases kind with
      | string => cases h
      | integer => cases h; exact .integer (.integer hlit hbound)
      | number =>
        cases h
        have hrange := hbound.2
        unfold IntegerInRange minIntegerValue maxIntegerValue at hrange
        exact .widened (.integer hlit hbound) (F64.ofInt_exact (by omega))
    | number hlit hbound =>
      cases kind with
      | number => cases h; exact .number (.number hlit hbound)
      | _ => cases h

theorem descriptor_ok {kind : ChoiceKind} {choice : VariantChoice} {described : CommandChoiceDescriptor}
    (h : descriptor kind choice = .ok described) :
    described.name = choice.name ∧ choiceValue choice kind = .ok described.value := by
  obtain ⟨value, hvalue, rfl⟩ := map_ok.mp h
  exact ⟨rfl, hvalue⟩

/-- An accepted enum registers its variants, in order. -/
theorem expandChoice_registers {input : DeriveInput} {derived : Derived display}
    (h : expandChoice display input = .ok derived) :
    ∃ variants, input.data = .enum variants ∧ 1 ≤ variants.length ∧ variants.length ≤ Options.maxChoices ∧
      List.Forall₂ (Registers derived.kind) variants derived.choices := by
  obtain ⟨variants, hdata, hparse⟩ := expandChoice_ok h
  obtain ⟨hsome, hfew, hread⟩ := parseVariants_ok hparse
  refine ⟨variants, hdata, hsome, hfew, (collect_trans (collect_iff.mpr hread) (collect_iff.mp derived.described)).imp ?_⟩
  rintro variant described ⟨choice, hchoice, hdescribed⟩
  obtain ⟨hunit, hident, hlength, arguments, args, hstyle, hentries, hname, hvalue⟩ := parseVariant_ok hchoice
  obtain ⟨hsame, hregistered⟩ := descriptor_ok hdescribed
  rw [← hsame] at hname hlength
  exact ⟨hunit, ⟨arguments, args, hstyle, hentries, hname, registeredAs_of_value hident hvalue hregistered⟩, hlength⟩

theorem duplicates_fresh {kind : ChoiceKind} {choices : List VariantChoice} : ∀ {names values : List String},
    validateDuplicates display kind names values choices = .ok () → Fresh (·.name) names choices := by
  induction choices with
  | nil => exact fun _ => fresh_nil _ _
  | cons choice rest ih =>
    intro names values h
    unfold validateDuplicates at h
    split at h
    · cases h
    · rename_i hnew
      split at h
      · cases h
      · split at h
        · cases h
        · exact fresh_cons.mpr ⟨hnew, ih h⟩

namespace Derived

theorem names_nodup (derived : Derived display) : (derived.choices.map (·.name)).Nodup := by
  have hsame : derived.variants.map (·.name) = derived.choices.map (·.name) := by
    rw [← List.forall₂_eq_eq_eq, List.forall₂_map_left_iff, List.forall₂_map_right_iff]
    exact (collect_iff.mp derived.described).imp fun _ _ h => (descriptor_ok h).1.symm
  rw [← hsame]
  exact fresh_unseen.mp (duplicates_fresh (Options.deriveChoice_ok derived.derived).2)

theorem choice_value (derived : Derived display) {i : derived.Value} {choice : CommandChoiceDescriptor}
    (h : derived.choices[i.val]? = some choice) : choice.value = derived.value i := by
  obtain ⟨hlength, hget⟩ := List.forall₂_iff_get.mp (collect_iff.mp derived.described)
  obtain ⟨hi, rfl⟩ := List.getElem?_eq_some_iff.mp h
  have hvalue := (descriptor_ok (hget i.val i.isLt hi)).2
  have hregistered : derived.registered i = .ok derived.choices[i.val].value := hvalue
  rw [derived.registered_value i] at hregistered
  exact (Except.ok.inj hregistered).symm

theorem length_choices (derived : Derived display) : derived.choices.length = derived.variants.length :=
  (collect_iff.mp derived.described).length_eq.symm

theorem choice_get (derived : Derived display) (i : derived.Value) :
    ∃ choice, derived.choices[i.val]? = some choice ∧ choice ∈ derived.choices ∧ choice.value = derived.value i := by
  have hi : i.val < derived.choices.length := by rw [derived.length_choices]; exact i.isLt
  have hget := List.getElem?_eq_getElem hi
  exact ⟨_, hget, List.getElem_mem hi, derived.choice_value hget⟩

theorem values_pairwise (derived : Derived display) :
    derived.choices.Pairwise fun a b => accepts a.value b.value = false := by
  rw [List.pairwise_iff_getElem]
  intro i j hi hj hlt
  have hlength := derived.length_choices
  rw [derived.choice_value (i := ⟨i, by omega⟩) (List.getElem?_eq_getElem hi),
    derived.choice_value (i := ⟨j, by omega⟩) (List.getElem?_eq_getElem hj), Bool.eq_false_iff]
  intro haccepts
  have hsame := congrArg Fin.val (derived.value_inj haccepts)
  exact absurd hsame (Nat.ne_of_lt hlt)

end Derived

def Carries (derived : Derived display) (options : CommandOptions) (name : String) (value : CommandChoiceValue) : Prop :=
  ∃ submitted raw, options.get name = some submitted ∧ submitted.kind = derived.optionKind ∧ submitted.value = some raw ∧
    derived.kind.variant raw = some value

theorem extract_carried {derived : Derived display} {options : CommandOptions} {name : String} {value : CommandChoiceValue}
    (h : Carries derived options name value) : derived.option.extract options name = derived.select name (.ok value) := by
  obtain ⟨submitted, raw, hget, hkind, hraw, hvalue⟩ := h
  rw [derived.option_extract, Options.scalar_present hget, if_pos hkind, hraw]
  dsimp only
  rw [hvalue]
  rfl

/-- What an accepted enum registers is read back as its variant, and nothing else is. -/
theorem derived_round_trip {input : DeriveInput} {derived : Derived display}
    (h : expandChoice display input = .ok derived) :
    (∃ variants, input.data = .enum variants ∧ 1 ≤ variants.length ∧ variants.length ≤ Options.maxChoices ∧
      List.Forall₂ (Registers derived.kind) variants derived.choices) ∧
    (derived.choices.map (·.name)).Nodup ∧
    (derived.choices.Pairwise fun a b => accepts a.value b.value = false) ∧
    (∀ (i : derived.Value) (choice : CommandChoiceDescriptor) (options : CommandOptions) (name : String),
      derived.choices[i.val]? = some choice → Carries derived options name choice.value →
        derived.option.extract options name = .ok i) ∧
    (∀ (value : CommandChoiceValue) (options : CommandOptions) (name : String), Carries derived options name value →
      (∀ choice ∈ derived.choices, accepts choice.value value = false) →
        derived.option.extract options name = .error (.invalidChoice name)) := by
  refine ⟨expandChoice_registers h, derived.names_nodup, derived.values_pairwise, ?_, ?_⟩
  · intro i choice options name hchoice hcarries
    rw [extract_carried hcarries, derived.choice_value hchoice, derived.select_value]
  · intro value options name hcarries hother
    rw [extract_carried hcarries]
    refine derived.select_none name fun i => ?_
    obtain ⟨choice, -, hmem, hvalue⟩ := derived.choice_get i
    rw [← hvalue]
    exact hother choice hmem

end Expansion

def choiceAttr (name : String) (value : Expr) : Attribute :=
  ⟨plain "choice", .list (some [(⟨false, "name"⟩, some (.lit (.str name))), (⟨false, "value"⟩, some value)])⟩

def ratio : DeriveInput where
  generic := false
  data := .enum [
    ⟨⟨false, "Half"⟩, [choiceAttr "Half" (.lit (.float false 5 (-1)))], true⟩,
    ⟨⟨false, "Full"⟩, [choiceAttr "Full" (.lit (.int false 1))], true⟩]

def printed (x : F64) : String := if x = F64.ofInt 1 then "1" else "0.5"

def ratioDerived : Derived printed where
  variants := [⟨"Half", "Half", some (.number (F64.ofDecimal 5 (-1) false))⟩, ⟨"Full", "Full", some (.integer 1)⟩]
  kind := .number
  derived := rfl
  choices := [⟨"Half", .number (F64.ofDecimal 5 (-1) false)⟩, ⟨"Full", .number (F64.ofInt 1)⟩]
  described := rfl

def full : ratioDerived.Value := ⟨1, by decide⟩

/-- `Full` is registered as `1.0` and read back from it. -/
theorem derived_round_trip_ratio :
    expandChoice printed ratio = .ok ratioDerived ∧
      ratioDerived.option.extract ⟨[⟨"ratio", .number, some (.number (F64.ofInt 1)), [], false⟩]⟩ "ratio" = .ok full := by
  have hexpand : expandChoice printed ratio = .ok ratioDerived := rfl
  refine ⟨hexpand, (derived_round_trip hexpand).2.2.2.1 full ⟨"Full", .number (F64.ofInt 1)⟩ _ _ rfl ?_⟩
  exact ⟨_, _, rfl, rfl, rfl, rfl⟩

end GloamCommands.Macros
