/-
  GloamCommands.Macros.Exact — the option schemas are exactly the ones accepted.

  - `parseInlineChoices_iff`, `numericBounds_iff`, `stringBounds_iff`: choices and bounds.
  - `optionParameter_iff`: a parameter is accepted as an option exactly when it declares it.
  - `option_schema_exact`: and a parameter list when there are at most 25 of them and
    none that is required follows an optional one.
-/

import GloamCommands.Macros.Attributes
import GloamCommands.Lib.Keyed

namespace GloamCommands.Macros

open Lib (F64 Fresh fresh_nil fresh_cons fresh_unseen map_ok)

/-! ## Reading the choices -/

theorem validateChoiceName_iff (name : String) :
    validateChoiceName name = .ok () ↔ 1 ≤ name.length ∧ name.length ≤ 100 :=
  lengthCheck_iff name _

theorem inlineChoiceValue_iff {kind : OptionKind} {expression : Expr} {value : InlineChoiceValue} :
    inlineChoiceValue kind expression = .ok value ↔ ValueOf kind expression value := by
  constructor
  · intro h
    cases kind with
    | string =>
      have h : parseStringChoiceValue expression = .ok value := h
      unfold parseStringChoiceValue at h
      split at h
      · split at h
        · cases h
        · rename_i hlength
          cases h
          exact .string (by omega)
      · cases h
    | integer =>
      obtain ⟨bound, hbound, rfl⟩ := map_ok.mp h
      exact .integer ((parseIntegerBound_iff expression bound).mp hbound)
    | number =>
      obtain ⟨bound, hbound, rfl⟩ := map_ok.mp h
      exact .number ((parseNumberBound_iff expression bound).mp hbound)
    | _ => cases h
  · rintro (hlength | hbound | hbound)
    · simp only [inlineChoiceValue, parseStringChoiceValue, if_neg (Nat.not_lt.mpr hlength)]
    · exact map_ok.mpr ⟨_, (parseIntegerBound_iff expression _).mpr hbound, rfl⟩
    · exact map_ok.mpr ⟨_, (parseNumberBound_iff expression _).mpr hbound, rfl⟩

/-- One turn of the loop: a choice whose name and value are both new. -/
theorem inlineChoices_cons {kind : OptionKind} {names : List String} {parsed choices : List InlineChoice}
    {args : ChoiceArgs} {rest : List ChoiceArgs} :
    inlineChoices kind names parsed (args :: rest) = .ok choices ↔
      ∃ choice, ChoiceOf kind args choice ∧ choice.name ∉ names ∧
        (∀ existing ∈ parsed, sameChoiceValue existing.value choice.value = false) ∧
        inlineChoices kind (choice.name :: names) (parsed ++ [choice]) rest = .ok choices := by
  constructor
  · intro h
    unfold inlineChoices at h
    split at h
    · cases h
    · rename_i name hname
      split at h
      · cases h
      · rename_i hlength
        split at h
        · cases h
        · rename_i hnew
          split at h
          · cases h
          · rename_i expression hexpression
            split at h
            · cases h
            · rename_i value hvalue
              split at h
              · cases h
              · rename_i hdistinct
                refine ⟨⟨name, value⟩, ⟨hname, (validateChoiceName_iff name).mp hlength, expression, hexpression,
                  inlineChoiceValue_iff.mp hvalue⟩, hnew, ?_, h⟩
                simpa using hdistinct
  · rintro ⟨⟨name, value⟩, ⟨hname, hlength, expression, hexpression, hvalue⟩, hnew, hdistinct, h⟩
    have hany : parsed.any (fun existing => sameChoiceValue existing.value value) = false := by simpa using hdistinct
    unfold inlineChoices
    simp only [hname, (validateChoiceName_iff name).mpr hlength, if_neg hnew, hexpression,
      inlineChoiceValue_iff.mpr hvalue, hany]
    exact h

theorem inlineChoices_iff {kind : OptionKind} {args : List ChoiceArgs} :
    ∀ {names : List String} {parsed choices : List InlineChoice},
      inlineChoices kind names parsed args = .ok choices ↔
        ∃ more, choices = parsed ++ more ∧ List.Forall₂ (ChoiceOf kind) args more ∧ Fresh (·.name) names more ∧
          (∀ existing ∈ parsed, ∀ choice ∈ more, sameChoiceValue existing.value choice.value = false) ∧
          more.Pairwise (fun a b => sameChoiceValue a.value b.value = false) := by
  induction args with
  | nil =>
    intro names parsed choices
    constructor
    · intro h
      cases h
      exact ⟨[], (List.append_nil _).symm, .nil, fresh_nil _ _, by simp, .nil⟩
    · rintro ⟨more, rfl, hmore, -⟩
      cases hmore
      simp [inlineChoices]
  | cons args rest ih =>
    intro names parsed choices
    rw [inlineChoices_cons]
    constructor
    · rintro ⟨choice, hchoice, hnew, hdistinct, h⟩
      obtain ⟨more, rfl, hmore, hfresh, hseen, hpairwise⟩ := ih.mp h
      refine ⟨choice :: more, by simp, .cons hchoice hmore, fresh_cons.mpr ⟨hnew, hfresh⟩, fun existing he => ?_, ?_⟩
      · exact List.forall_mem_cons.mpr ⟨hdistinct existing he, hseen existing (List.mem_append_left _ he)⟩
      · exact .cons (hseen choice (List.mem_append_right _ (List.mem_singleton_self _))) hpairwise
    · rintro ⟨all, rfl, hall, hfresh, hseen, hpairwise⟩
      obtain ⟨choice, more, hchoice, hmore, rfl⟩ := List.forall₂_cons_left_iff.mp hall
      obtain ⟨hnew, hfresh⟩ := fresh_cons.mp hfresh
      obtain ⟨hfirst, hpairwise⟩ := List.pairwise_cons.mp hpairwise
      refine ⟨choice, hchoice, hnew, fun existing he => hseen existing he choice (List.mem_cons_self ..),
        ih.mpr ⟨more, by simp, hmore, hfresh, fun existing he => ?_, hpairwise⟩⟩
      rcases List.mem_append.mp he with he | he
      · exact fun other ho => hseen existing he other (List.mem_cons_of_mem _ ho)
      · rw [List.mem_singleton.mp he]
        exact hfirst

theorem parseInlineChoices_iff {kind : OptionKind} {args : List ChoiceArgs} {source : ChoiceSource} :
    parseInlineChoices kind args = .ok source ↔ ChoiceSchema kind args source := by
  constructor
  · intro h
    unfold parseInlineChoices at h
    split at h
    · rename_i hempty
      cases h
      rw [List.isEmpty_iff.mp hempty]
      exact .none
    · rename_i hsome
      split at h
      · cases h
      · rename_i hcount
        split at h
        · cases h
        · rename_i hkind
          obtain ⟨choices, hchoices, rfl⟩ := map_ok.mp h
          obtain ⟨more, hmore, hread, hfresh, -, hpairwise⟩ := inlineChoices_iff.mp hchoices
          obtain rfl : choices = more := hmore
          exact .inline (by simpa using hsome) (by omega) (by simpa using hkind) hread (fresh_unseen.mp hfresh) hpairwise
  · intro h
    cases h with
    | none => rfl
    | @inline args choices hsome hcount hkind hread hnames hvalues =>
      have hloop : inlineChoices kind [] [] args = .ok choices :=
        inlineChoices_iff.mpr ⟨choices, rfl, hread, fresh_unseen.mpr hnames, by simp, hvalues⟩
      unfold parseInlineChoices
      rw [if_neg (by simpa using hsome), if_neg (by omega), if_neg (by simpa using hkind)]
      exact map_ok.mpr ⟨_, hloop, rfl⟩

/-! ## Reading the bounds -/

section Bounds

variable {α : Type} {parse : Expr → Expansion α} {Reads : Expr → α → Prop} {key : OptionAttribute} {attrs : List Attribute}

theorem Declared.expression {value : Option α} (h : Declared Reads key attrs value) :
    ∃ expression, Declared Eq key attrs expression := by
  cases value with
  | none => exact ⟨none, h⟩
  | some value =>
    obtain ⟨expression, hnamed, -⟩ := h
    exact ⟨some expression, expression, hnamed, rfl⟩

theorem Declared.absent {value : Option α} (h : Declared Reads key attrs value) (hnone : value = none) :
    named key attrs = [] := by
  rw [hnone] at h
  exact h

theorem declared_none {expression : Option Expr} (h : Declared Eq key attrs expression) :
    expression.isNone = true ↔ named key attrs = [] := by
  cases expression with
  | none => exact ⟨fun _ => h, fun _ => rfl⟩
  | some expression =>
    obtain ⟨_, hnamed, -⟩ := h
    simp [hnamed]

theorem parseOptional_iff (hparse : ∀ expression value, parse expression = .ok value ↔ Reads expression value)
    {expression : Option Expr} (h : Declared Eq key attrs expression) (value : Option α) :
    parseOptional parse expression = .ok value ↔ Declared Reads key attrs value := by
  cases expression with
  | none =>
    have hnamed : named key attrs = [] := h
    cases value <;> simp [parseOptional, Declared, hnamed]
  | some expression =>
    obtain ⟨_, hnamed, rfl⟩ := h
    rw [parseOptional, map_ok]
    cases value with
    | none => simp [Declared, hnamed]
    | some value => simp [Declared, hnamed, hparse]

theorem orderedBounds_iff {less : α → α → Bool} {error : String} {min max : Option Expr} {low high : Option α} :
    orderedBounds parse less error min max = .ok (low, high) ↔
      parseOptional parse min = .ok low ∧ parseOptional parse max = .ok high ∧ ∀ l ∈ low, ∀ h ∈ high, less h l = false := by
  constructor
  · intro h
    unfold orderedBounds at h
    split at h
    · cases h
    · rename_i hlow
      split at h
      · cases h
      · rename_i hhigh
        split at h
        · rename_i l h'
          split at h
          · cases h
          · rename_i hless
            cases h
            refine ⟨hlow, hhigh, ?_⟩
            rintro _ ⟨⟩ _ ⟨⟩
            simpa using hless
        · rename_i hopen
          cases h
          exact ⟨hlow, hhigh, fun l hl h hh => (hopen l h hl hh).elim⟩
  · rintro ⟨hlow, hhigh, hordered⟩
    simp only [orderedBounds, hlow, hhigh]
    split
    · rw [if_neg (by simp [hordered _ rfl _ rfl])]
    · rfl

theorem Declared.reads {value : Option α} (h : Declared Reads key attrs value) {a : α} (ha : a ∈ value) :
    ∃ expression, Reads expression a := by
  obtain rfl : value = some a := ha
  obtain ⟨expression, -, hreads⟩ := h
  exact ⟨expression, hreads⟩

/-- Both bounds are declared, and in order where `less` decides the order of what is read. -/
theorem orderedBounds_declared {R : α → α → Prop} {less : α → α → Bool} {error : String} {keyMin keyMax : OptionAttribute}
    {min max : Option Expr} {low high : Option α}
    (hparse : ∀ expression value, parse expression = .ok value ↔ Reads expression value)
    (hless : ∀ {e e' : Expr} {l h : α}, Reads e l → Reads e' h → (less h l = false ↔ R l h))
    (hmin : Declared Eq keyMin attrs min) (hmax : Declared Eq keyMax attrs max) :
    orderedBounds parse less error min max = .ok (low, high) ↔
      Declared Reads keyMin attrs low ∧ Declared Reads keyMax attrs high ∧ ∀ l ∈ low, ∀ h ∈ high, R l h := by
  rw [orderedBounds_iff, parseOptional_iff hparse hmin low, parseOptional_iff hparse hmax high]
  refine and_congr_right fun hlow => and_congr_right fun hhigh => ?_
  constructor
  · intro hordered l hl h hh
    obtain ⟨_, hrl⟩ := hlow.reads hl
    obtain ⟨_, hrh⟩ := hhigh.reads hh
    exact (hless hrl hrh).mp (hordered l hl h hh)
  · intro hordered l hl h hh
    obtain ⟨_, hrl⟩ := hlow.reads hl
    obtain ⟨_, hrh⟩ := hhigh.reads hh
    exact (hless hrl hrh).mpr (hordered l hl h hh)

end Bounds

/-- Two bounds in Discord's range are never NaN. -/
theorem number_ordered {low high : F64} (hl : NumberInRange low) (hh : NumberInRange high) :
    high.lt low = false ↔ low.le high = true := by
  rw [F64.lt_eq_not_le (F64.not_nan_of_finite hl.1) (F64.not_nan_of_finite hh.1)]
  simp

theorem numericBounds_iff {kind : OptionKind} {attrs : List Attribute} {min max : Option Expr}
    {low high : Option NumericBound} (hmin : Declared Eq .min attrs min) (hmax : Declared Eq .max attrs max) :
    numericBounds kind min max = .ok (low, high) ↔ NumericSchema attrs kind low high := by
  have hinteger : numericBounds .integer min max =
      (orderedBounds parseIntegerBound (fun a b => decide (a < b)) "integer `min` cannot be greater than `max`" min max).map
        fun bounds => (bounds.1.map .integer, bounds.2.map .integer) := by
    cases min <;> cases max <;> rfl
  have hnumber : numericBounds .number min max =
      (orderedBounds parseNumberBound F64.lt "number `min` cannot be greater than `max`" min max).map
        fun bounds => (bounds.1.map .number, bounds.2.map .number) := by
    cases min <;> cases max <;> rfl
  cases kind with
  | integer =>
    have hless : ∀ {e e' : Expr} {l h : Int}, IntegerBound e l → IntegerBound e' h → (decide (h < l) = false ↔ l ≤ h) := by
      simp
    rw [hinteger, map_ok]
    constructor
    · rintro ⟨⟨l, h⟩, hbounds, heq⟩
      obtain ⟨hlow, hhigh, hordered⟩ := (orderedBounds_declared parseIntegerBound_iff hless hmin hmax).mp hbounds
      cases heq
      exact ⟨l, h, hlow, hhigh, hordered, rfl, rfl⟩
    · rintro ⟨l, h, hlow, hhigh, hordered, rfl, rfl⟩
      exact ⟨(l, h), (orderedBounds_declared parseIntegerBound_iff hless hmin hmax).mpr ⟨hlow, hhigh, hordered⟩, rfl⟩
  | number =>
    have hless : ∀ {e e' : Expr} {l h : F64}, NumberBound e l → NumberBound e' h → (h.lt l = false ↔ l.le h = true) :=
      fun hl hh => number_ordered hl.2 hh.2
    rw [hnumber, map_ok]
    constructor
    · rintro ⟨⟨l, h⟩, hbounds, heq⟩
      obtain ⟨hlow, hhigh, hordered⟩ := (orderedBounds_declared parseNumberBound_iff hless hmin hmax).mp hbounds
      cases heq
      exact ⟨l, h, hlow, hhigh, hordered, rfl, rfl⟩
    · rintro ⟨l, h, hlow, hhigh, hordered, rfl, rfl⟩
      exact ⟨(l, h), (orderedBounds_declared parseNumberBound_iff hless hmin hmax).mpr ⟨hlow, hhigh, hordered⟩, rfl⟩
  | _ =>
    -- a kind without bounds
    have hnone := and_congr (declared_none hmin) (declared_none hmax)
    by_cases h : min.isNone = true ∧ max.isNone = true
    · have hnamed := hnone.mp h
      simp [numericBounds, NumericSchema, h, hnamed, eq_comm]
    · have hnamed := fun h' => h (hnone.mpr h')
      have herror : (min.isNone && max.isNone) = false := by simpa [Bool.eq_false_iff] using h
      simp only [numericBounds, NumericSchema, herror, Bool.false_eq_true, if_false, reduceCtorEq, false_iff]
      exact fun hs => hnamed ⟨hs.1, hs.2.1⟩

theorem lowest_iff (low : Option Nat) :
    low.any (fun value => decide (maxStringLength < value)) = false ↔ ∀ l ∈ low, l ≤ maxStringLength := by
  simp [Option.any_eq_false]

theorem highest_iff (high : Option Nat) :
    high.any (fun value => decide (value < 1) || decide (maxStringLength < value)) = false ↔
      ∀ h ∈ high, 1 ≤ h ∧ h ≤ maxStringLength := by
  simp [Option.any_eq_false, Nat.one_le_iff_ne_zero]

theorem stringBounds_string {min max : Option Expr} {low high : Option Nat} :
    stringBounds .string min max = .ok (low, high) ↔
      parseOptional parseLength min = .ok low ∧ parseOptional parseLength max = .ok high ∧
        (∀ l ∈ low, l ≤ maxStringLength) ∧ (∀ h ∈ high, 1 ≤ h ∧ h ≤ maxStringLength) ∧ ∀ l ∈ low, ∀ h ∈ high, l ≤ h := by
  by_cases hempty : (min.isNone && max.isNone) = true
  · -- neither attribute: nothing is checked
    obtain ⟨rfl, rfl⟩ : min = none ∧ max = none := by simpa using hempty
    simp only [stringBounds, Option.isNone_none, Bool.and_self, if_true, parseOptional, Except.ok.injEq, Prod.mk.injEq]
    constructor
    · rintro ⟨rfl, rfl⟩
      simp
    · exact fun h => ⟨h.1, h.2.1⟩
  unfold stringBounds
  rw [if_neg hempty, if_neg (by simp)]
  constructor
  · intro h
    split at h
    · cases h
    · rename_i low' hlow
      split at h
      · cases h
      · rename_i high' hhigh
        split at h
        · cases h
        · rename_i hlowest
          split at h
          · cases h
          · rename_i hhighest
            have hlowest := (lowest_iff low').mp (by simpa using hlowest)
            have hhighest := (highest_iff high').mp (by simpa using hhighest)
            split at h
            · split at h
              · cases h
              · rename_i hordered
                cases h
                refine ⟨hlow, hhigh, hlowest, hhighest, ?_⟩
                rintro _ ⟨⟩ _ ⟨⟩
                omega
            · rename_i hopen
              cases h
              exact ⟨hlow, hhigh, hlowest, hhighest, fun l hl h hh => (hopen l h hl hh).elim⟩
  · rintro ⟨hlow, hhigh, hlowest, hhighest, hordered⟩
    simp only [hlow, hhigh, (lowest_iff low).mpr hlowest, (highest_iff high).mpr hhighest, Bool.false_eq_true, if_false]
    split
    · rw [if_neg (Nat.not_lt.mpr (hordered _ rfl _ rfl))]
    · rfl

theorem stringBounds_iff {kind : OptionKind} {attrs : List Attribute} {min max : Option Expr} {low high : Option Nat}
    (hmin : Declared Eq .minLength attrs min) (hmax : Declared Eq .maxLength attrs max) :
    stringBounds kind min max = .ok (low, high) ↔ LengthSchema attrs kind low high := by
  cases kind with
  | string =>
    rw [stringBounds_string, parseOptional_iff parseLength_iff hmin low, parseOptional_iff parseLength_iff hmax high]
    exact Iff.rfl
  | _ =>
    have hnone := and_congr (declared_none hmin) (declared_none hmax)
    by_cases h : min.isNone = true ∧ max.isNone = true
    · have hnamed := hnone.mp h
      simp [stringBounds, LengthSchema, h, hnamed, eq_comm]
    · have hnamed := fun h' => h (hnone.mpr h')
      have herror : (min.isNone && max.isNone) = false := by simpa [Bool.eq_false_iff] using h
      simp only [stringBounds, LengthSchema, herror, Bool.false_eq_true, if_false, ne_eq, reduceCtorEq, not_false_eq_true,
        if_true, false_iff]
      exact fun hs => hnamed ⟨hs.1, hs.2.1⟩

theorem NumericSchema.expressions {attrs : List Attribute} {kind : OptionKind} {low high : Option NumericBound}
    (h : NumericSchema attrs kind low high) : ∃ min max, Declared Eq .min attrs min ∧ Declared Eq .max attrs max := by
  cases kind with
  | integer =>
    obtain ⟨_, _, hlow, hhigh, -⟩ := h
    obtain ⟨min, hmin⟩ := hlow.expression
    obtain ⟨max, hmax⟩ := hhigh.expression
    exact ⟨min, max, hmin, hmax⟩
  | number =>
    obtain ⟨_, _, hlow, hhigh, -⟩ := h
    obtain ⟨min, hmin⟩ := hlow.expression
    obtain ⟨max, hmax⟩ := hhigh.expression
    exact ⟨min, max, hmin, hmax⟩
  | _ => exact ⟨none, none, h.1, h.2.1⟩

theorem LengthSchema.expressions {attrs : List Attribute} {kind : OptionKind} {low high : Option Nat}
    (h : LengthSchema attrs kind low high) :
    ∃ min max, Declared Eq .minLength attrs min ∧ Declared Eq .maxLength attrs max := by
  cases kind with
  | string =>
    obtain ⟨min, hmin⟩ := h.1.expression
    obtain ⟨max, hmax⟩ := h.2.1.expression
    exact ⟨min, max, hmin, hmax⟩
  | _ => exact ⟨none, none, h.1, h.2.1⟩

/-! ## Reading a parameter -/

theorem typedParameter_iff {ident : Ident} {ty : RustType} {description : String} {attributes : OptionAttributes}
    {option : OptionParameter} :
    typedParameter ident ty description attributes = .ok option ↔
      OptionalOf IsChoiceType ty option.required ∧
        (attributes.min = none ∧ attributes.max = none ∧ attributes.minLength = none ∧ attributes.maxLength = none) ∧
        option = {
          ident := ident, ty := ty, name := ident.unraw, description := description, required := option.required
          choices := .typed, autocomplete := none, min := none, max := none, minLength := none, maxLength := none } := by
  have hbounds : (attributes.min.isSome || attributes.max.isSome || attributes.minLength.isSome ||
      attributes.maxLength.isSome) = false ↔ attributes.min = none ∧ attributes.max = none ∧
        attributes.minLength = none ∧ attributes.maxLength = none := by
    simp [and_assoc]
  rw [← hbounds]
  unfold typedParameter
  constructor
  · intro h
    split at h
    · cases h
    · rename_i required hrequired
      split at h
      · cases h
      · rename_i hnone
        cases h
        exact ⟨validateTypedChoiceType_iff.mp hrequired, by simpa using hnone, rfl⟩
  · rintro ⟨htype, hnone, hoption⟩
    rw [validateTypedChoiceType_iff.mpr htype]
    simp only [hnone, Bool.false_eq_true, if_false]
    rw [← hoption]

theorem scalarParameter_iff {ident : Ident} {ty : RustType} {description : String} {attributes : OptionAttributes}
    {option : OptionParameter} :
    scalarParameter ident ty description attributes = .ok option ↔
      ∃ kind, OptionalOf (IsScalar kind) ty option.required ∧
        (attributes.autocomplete.isSome = true → kind.choosable = true) ∧
        parseInlineChoices kind attributes.inlineChoices = .ok option.choices ∧
        numericBounds kind attributes.min attributes.max = .ok (option.min, option.max) ∧
        stringBounds kind attributes.minLength attributes.maxLength = .ok (option.minLength, option.maxLength) ∧
        (option.ident = ident ∧ option.ty = ty ∧ option.name = ident.unraw ∧ option.description = description ∧
          option.autocomplete = attributes.autocomplete) := by
  unfold scalarParameter
  constructor
  · intro h
    split at h
    · cases h
    · rename_i kind required htype
      split at h
      · cases h
      · rename_i hcompletes
        split at h
        · cases h
        · rename_i choices hchoices
          split at h
          · cases h
          · rename_i min max hnumeric
            split at h
            · cases h
            · rename_i minLength maxLength hlengths
              cases h
              exact ⟨kind, optionType_iff.mp htype, by simpa using hcompletes, hchoices, hnumeric, hlengths, rfl, rfl, rfl,
                rfl, rfl⟩
  · rintro ⟨kind, htype, hcompletes, hchoices, hnumeric, hlengths, rfl, rfl, hname, rfl, hautocomplete⟩
    have hallowed : (attributes.autocomplete.isSome && !kind.choosable) = false := by
      cases ha : attributes.autocomplete.isSome with
      | false => rfl
      | true => rw [hcompletes ha]; rfl
    rw [optionType_iff.mpr htype]
    simp only [hallowed, Bool.false_eq_true, if_false, hchoices, hnumeric, hlengths]
    rw [← hname, ← hautocomplete]

/-- What `option_parameter` checks of the attributes together, before it looks at the type. -/
structure Compatible (attributes : OptionAttributes) : Prop where
  form : attributes.typedChoice = true → attributes.inlineChoices = []
  completes : attributes.autocomplete.isSome = true → attributes.typedChoice = false ∧ attributes.inlineChoices = []

theorem namedParameter_iff {unicode : Unicode} {ident : Ident} {attrs : List Attribute} {ty : RustType}
    {option : OptionParameter} :
    namedParameter unicode ident attrs ty = .ok option ↔
      ValidName unicode ident.unraw ∧ ∃ attributes description, DeclaresAttributes attrs attributes ∧
        attributes.description = some description ∧ (1 ≤ description.length ∧ description.length ≤ 100) ∧
        Compatible attributes ∧
        (if attributes.typedChoice then typedParameter ident ty description attributes
          else scalarParameter ident ty description attributes) = .ok option := by
  unfold namedParameter
  constructor
  · intro h
    split at h
    · cases h
    · rename_i hname
      split at h
      · cases h
      · rename_i attributes kept hattributes
        split at h
        · cases h
        · rename_i description hdescription
          split at h
          · cases h
          · rename_i hlength
            split at h
            · cases h
            · rename_i hform
              split at h
              · cases h
              · rename_i hcompletes
                refine ⟨(validateName_iff unicode _).mp hname, attributes, description, (attributes_iff.mp hattributes).1,
                  hdescription, (validateDescription_iff _).mp hlength, ⟨?_, ?_⟩, h⟩
                · simpa using hform
                · simpa using hcompletes
  · rintro ⟨hname, attributes, description, hattributes, hdescription, hlength, ⟨hform, hcompletes⟩, h⟩
    have hform : (attributes.typedChoice && !attributes.inlineChoices.isEmpty) = false := by
      cases ht : attributes.typedChoice with
      | false => rfl
      | true => rw [hform ht]; rfl
    have hcompletes : (attributes.autocomplete.isSome && (attributes.typedChoice || !attributes.inlineChoices.isEmpty)) = false := by
      cases ha : attributes.autocomplete.isSome with
      | false => rfl
      | true => rw [(hcompletes ha).1, (hcompletes ha).2]; rfl
    rw [(validateName_iff unicode _).mpr hname, attributes_iff.mpr ⟨hattributes, rfl⟩]
    simp only [hdescription, (validateDescription_iff _).mpr hlength, hform, hcompletes, Bool.false_eq_true, if_false]
    exact h

theorem declares_of_accepted {unicode : Unicode} {ident : Ident} {attrs : List Attribute} {ty : RustType}
    {option : OptionParameter} (h : namedParameter unicode ident attrs ty = .ok option) :
    Declares unicode IsChoiceType (.typed attrs (.ident ident false) ty) option := by
  obtain ⟨hname, attributes, description, hattributes, hdescription, hlength, hcompatible, h⟩ := namedParameter_iff.mp h
  have hdeclared := hdescription ▸ hattributes.description
  split at h
  · rename_i htyped
    obtain ⟨htype, ⟨hmin, hmax, hminLength, hmaxLength⟩, hoption⟩ := typedParameter_iff.mp h
    have hautocomplete : attributes.autocomplete = none := by
      by_contra hsome
      rw [(hcompatible.completes (Option.isSome_iff_ne_none.mpr hsome)).1] at htyped
      cases htyped
    have hschema : TypedSchema IsChoiceType attrs ty option := by
      refine ⟨?_, hattributes.autocomplete.absent hautocomplete, ⟨hattributes.min.absent hmin,
        hattributes.max.absent hmax, hattributes.minLength.absent hminLength, hattributes.maxLength.absent hmaxLength⟩,
        htype, ?_⟩
      · rw [← hcompatible.form htyped, ← htyped]
        exact hattributes.choices
      · rw [hoption]
        exact ⟨rfl, rfl, rfl, rfl, rfl, rfl⟩
    rw [hoption] at hschema ⊢
    exact ⟨⟨attrs, rfl, hdeclared, .inl hschema⟩, ⟨rfl, hname⟩, hlength⟩
  · rename_i hscalar
    obtain ⟨kind, htype, hcompletes, hchoices, hnumeric, hlengths, rfl, rfl, hon, rfl, hautocomplete⟩ :=
      scalarParameter_iff.mp h
    have hschema : ScalarSchema attrs option.ty kind attributes.inlineChoices option := by
      refine ⟨?_, hautocomplete ▸ hattributes.autocomplete, fun ha => ?_, htype, parseInlineChoices_iff.mp hchoices,
        (numericBounds_iff hattributes.min hattributes.max).mp hnumeric,
        (stringBounds_iff hattributes.minLength hattributes.maxLength).mp hlengths⟩
      · rw [← Bool.eq_false_iff.mpr hscalar]
        exact hattributes.choices
      · rw [hautocomplete] at ha
        exact ⟨hcompletes ha, (hcompatible.completes ha).2⟩
    exact ⟨⟨attrs, rfl, hdeclared, .inr ⟨kind, _, hschema⟩⟩, ⟨hon, hon ▸ hname⟩, hlength⟩

theorem accepted_of_declares {unicode : Unicode} {argument : FnArg} {option : OptionParameter}
    (h : Declares unicode IsChoiceType argument option) : optionParameter unicode argument = .ok option := by
  obtain ⟨⟨attrs, rfl, hdescription, hschema⟩, ⟨hunraw, hname⟩, hlength⟩ := h
  refine namedParameter_iff.mpr ⟨hunraw ▸ hname, ?_⟩
  rcases hschema with hschema | ⟨kind, inline, hschema⟩
  · obtain ⟨hchoices, hautocomplete, ⟨hmin, hmax, hminLength, hmaxLength⟩, htype, hcarried⟩ := hschema
    refine ⟨{ description := some option.description, typedChoice := true }, option.description,
      ⟨hdescription, hmin, hmax, hminLength, hmaxLength, hautocomplete, hchoices⟩, rfl, hlength,
      ⟨fun _ => rfl, fun ha => (by cases ha)⟩, typedParameter_iff.mpr ⟨htype, ⟨rfl, rfl, rfl, rfl⟩, ?_⟩⟩
    rcases option with ⟨ident, ty, name, description, required, choices, autocomplete, min, max, minLength, maxLength⟩
    obtain ⟨rfl, rfl, rfl, rfl, rfl, rfl⟩ := hcarried
    obtain rfl : name = ident.unraw := hunraw
    rfl
  · obtain ⟨hchoices, hautocomplete, hcompletes, htype, hinline, hnumeric, hlengths⟩ := hschema
    obtain ⟨min, max, hmin, hmax⟩ := hnumeric.expressions
    obtain ⟨minLength, maxLength, hminLength, hmaxLength⟩ := hlengths.expressions
    refine ⟨⟨some option.description, min, max, minLength, maxLength, option.autocomplete, false, inline⟩,
      option.description, ⟨hdescription, hmin, hmax, hminLength, hmaxLength, hautocomplete, hchoices⟩, rfl, hlength,
      ⟨fun ht => (by cases ht), fun ha => ⟨rfl, (hcompletes ha).2⟩⟩, scalarParameter_iff.mpr ⟨kind, htype,
        fun ha => (hcompletes ha).1, parseInlineChoices_iff.mpr hinline, (numericBounds_iff hmin hmax).mpr hnumeric,
        (stringBounds_iff hminLength hmaxLength).mpr hlengths, rfl, rfl, hunraw, rfl, rfl⟩⟩

/-- A parameter is accepted as an option exactly when it declares it. -/
theorem optionParameter_iff {unicode : Unicode} {argument : FnArg} {option : OptionParameter} :
    optionParameter unicode argument = .ok option ↔ Declares unicode IsChoiceType argument option := by
  refine ⟨fun h => ?_, accepted_of_declares⟩
  unfold optionParameter at h
  split at h
  · cases h
  · exact declares_of_accepted h
  · cases h

/-! ## Reading the parameters -/

/-- The loop of `option_parameters`: after an optional option, none that is required. -/
theorem parameters_iff {unicode : Unicode} {arguments : List FnArg} :
    ∀ {sawOptional : Bool} {parsed options : List OptionParameter},
      parameters unicode sawOptional parsed arguments = .ok options ↔
        ∃ more, options = parsed ++ more ∧ List.Forall₂ (Declares unicode IsChoiceType) arguments more ∧
          RequiredFirst more ∧ (sawOptional = true → ∀ option ∈ more, option.required = false) := by
  induction arguments with
  | nil =>
    intro sawOptional parsed options
    simp only [parameters, Except.ok.injEq]
    constructor
    · rintro rfl
      exact ⟨[], (List.append_nil _).symm, .nil, .nil, fun _ _ h => (by cases h)⟩
    · rintro ⟨more, rfl, hmore, -⟩
      cases hmore
      exact (List.append_nil _).symm
  | cons argument rest ih =>
    intro sawOptional parsed options
    unfold parameters
    constructor
    · intro h
      split at h
      · cases h
      · rename_i option hoption
        split at h
        · cases h
        · rename_i horder
          obtain ⟨more, rfl, hmore, hfirst, hoptional⟩ := ih.mp h
          refine ⟨option :: more, by simp, .cons (optionParameter_iff.mp hoption) hmore, ?_, fun hs => ?_⟩
          · refine .cons (fun later hl hrequired => ?_) hfirst
            cases hr : option.required with
            | true => rfl
            | false => rw [hoptional (by simp [hr]) later hl] at hrequired; cases hrequired
          · refine List.forall_mem_cons.mpr ⟨by simpa [hs] using horder, hoptional (by simp [hs])⟩
    · rintro ⟨all, rfl, hall, hfirst, hoptional⟩
      obtain ⟨option, more, hoption, hmore, rfl⟩ := List.forall₂_cons_left_iff.mp hall
      obtain ⟨hahead, hfirst⟩ := List.pairwise_cons.mp hfirst
      have horder : (option.required && sawOptional) = false := by
        cases hs : sawOptional with
        | false => simp
        | true => simp [hoptional hs option (List.mem_cons_self ..)]
      simp only [optionParameter_iff.mpr hoption, horder, Bool.false_eq_true, if_false]
      refine ih.mpr ⟨more, by simp, hmore, hfirst, fun hs later hl => ?_⟩
      rcases Bool.or_eq_true_iff.mp hs with hs | hs
      · exact hoptional hs later (List.mem_cons_of_mem _ hl)
      · cases hr : later.required with
        | false => rfl
        | true => rw [hahead later hl hr] at hs; cases hs

structure DeclaresOptions (unicode : Unicode) (inputs : List FnArg) (options : List OptionParameter) : Prop where
  few : inputs.length - 1 ≤ maxCommandOptions
  declared : List.Forall₂ (Declares unicode IsChoiceType) (inputs.drop 1) options
  order : RequiredFirst options

theorem optionParameters_iff {unicode : Unicode} {inputs : List FnArg} {options : List OptionParameter} :
    optionParameters unicode inputs = .ok options ↔ DeclaresOptions unicode inputs options := by
  unfold optionParameters
  split
  · rename_i hmany
    exact ⟨fun h => (by cases h), fun h => absurd h.few (by omega)⟩
  · rename_i hfew
    rw [parameters_iff]
    constructor
    · rintro ⟨more, rfl, hmore, hfirst, -⟩
      exact ⟨by omega, hmore, hfirst⟩
    · intro h
      exact ⟨options, rfl, h.declared, h.order, fun hsaw => (by cases hsaw)⟩

/-- The option schemas that are accepted, and the options they are accepted as. -/
theorem option_schema_exact (unicode : Unicode) (inputs : List FnArg) (options : List OptionParameter) :
    optionParameters unicode inputs = .ok options ↔
      inputs.length - 1 ≤ maxCommandOptions ∧
        List.Forall₂ (Declares unicode IsChoiceType) (inputs.drop 1) options ∧ RequiredFirst options :=
  optionParameters_iff.trans ⟨fun h => ⟨h.few, h.declared, h.order⟩, fun ⟨few, declared, order⟩ => ⟨few, declared, order⟩⟩

/-! ## A generic type has no choices -/

/-- A path that is no built-in scalar, whatever its generic arguments. -/
def IsPathType (ty : RustType) : Prop := ∃ segments, ty = .path segments ∧ ∀ kind, ¬ IsScalar kind ty

def ascii : Unicode := ⟨Char.isAlphanum, fun name => String.ofList (name.toList.map Char.toLower)⟩

def plain (name : String) : Path := ⟨false, [.mk ⟨false, name⟩ .none]⟩

def wrapper : RustType :=
  .path [.mk ⟨false, "Wrapper"⟩ (.angleBracketed [.type (.path [.mk ⟨false, "Color"⟩ .none])])]

def wrapperAttrs : List Attribute :=
  [⟨plain "description", .nameValue (.lit (.str "A colour"))⟩, ⟨plain "choice", .path⟩]

def wrapperOption : OptionParameter where
  ident := ⟨false, "color"⟩
  ty := wrapper
  name := "color"
  description := "A colour"
  required := true
  choices := .typed
  autocomplete := none
  min := none
  max := none
  minLength := none
  maxLength := none

/-- `fn paint(context: .., #[description = "A colour"] #[choice] color: Wrapper<Color>)`. -/
def wrapperInputs : List FnArg :=
  [.typed [] (.ident ⟨false, "context"⟩ false) .other, .typed wrapperAttrs (.ident ⟨false, "color"⟩ false) wrapper]

theorem generic_choice_refused :
    (List.Forall₂ (Declares ascii IsPathType) (wrapperInputs.drop 1) [wrapperOption] ∧ RequiredFirst [wrapperOption]) ∧
      optionParameters ascii wrapperInputs =
        .error (.message "bare `#[choice]` requires a type that derives `CommandChoice`") := by
  have hchoice : named .choice wrapperAttrs = [.path] := rfl
  have hpath : IsPathType wrapper := by
    refine ⟨_, rfl, ?_⟩
    rintro kind ⟨ident, ⟨hlast⟩, -⟩
    cases hlast
  have hchoices : DeclaresChoices wrapperAttrs true [] := by
    refine ⟨?_, ?_, ?_⟩ <;> rw [hchoice]
    · simp
    · rfl
    · exact .nil
  have hschema : TypedSchema IsPathType wrapperAttrs wrapper wrapperOption :=
    ⟨hchoices, rfl, ⟨rfl, rfl, rfl, rfl⟩, .inl ⟨rfl, hpath⟩, rfl, rfl, rfl, rfl, rfl, rfl⟩
  refine ⟨⟨.cons ⟨⟨wrapperAttrs, rfl, ⟨_, rfl, rfl⟩, .inl hschema⟩, ⟨rfl, ?_⟩, by decide⟩ .nil, .cons (by simp) .nil⟩, ?_⟩
  · exact (validateName_iff _ _).mp (by decide)
  · rfl

end GloamCommands.Macros
