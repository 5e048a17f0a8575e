/-
  GloamCommands.Macros.Enums — which enums `#[derive(CommandChoice)]` accepts
  (`expand`, `parse_variants`, `parse_value`, `infer_kind`, `validate_duplicates`,
  `number_key`, `descriptor_tokens` in crates/gloam-commands-macros/src/choice.rs).

  The declaration is described on its own (`DeclaresEnum`): one attribute a variant, the
  value a literal of the kind the variants agree on, names and values apart. The derive
  compares values by a text of them. Integers have distinct texts; for numbers that is
  `Faithful`, what the standard library says of printing an `f64`.
  - `keyOf_iff`: two values have one text exactly if the generated code takes them for the
    same.
  - `choice_enum_exact`: the derive accepts what is so declared, with the kind and the
    choices declared, and nothing else.
-/

import GloamCommands.Macros.Choices
import Std.Data.String.ToInt

namespace GloamCommands.Macros

open Lib (F64 Fresh fresh_nil fresh_cons fresh_unseen map_ok collect collect_iff collect_trans collect_split forall₂_mem_left
  forall₂_mem_right)
open Options (ParsedValue VariantChoice ChoiceKind accepts inferKind validateDuplicates choiceValue keyOf numberKey
  maxChoiceStringValue valueKey_value)

/-! ## The declaration -/

/-- The value of a variant of an enum of the kind. An omitted one is the variant's name,
    and an integer among numbers the number nearest to it. -/
inductive MeansValue : ChoiceKind → Ident → Option Expr → CommandChoiceValue → Prop
  | omitted {ident : Ident} : ident.unraw.length ≤ maxChoiceStringValue → MeansValue .string ident none (.string ident.unraw)
  | string {ident : Ident} {expression : Expr} {value : String} : ValueLiteral expression (.string value) →
      MeansValue .string ident (some expression) (.string value)
  | integer {ident : Ident} {expression : Expr} {value : Int} : ValueLiteral expression (.integer value) →
      MeansValue .integer ident (some expression) (.integer value)
  | widened {ident : Ident} {expression : Expr} {value : Int} : ValueLiteral expression (.integer value) →
      MeansValue .number ident (some expression) (.number (F64.ofInt value))
  | number {ident : Ident} {expression : Expr} {value : F64} : ValueLiteral expression (.number value) →
      MeansValue .number ident (some expression) (.number value)

structure Attributed (variant : Variant) (args : ChoiceArgs) : Prop where
  isUnit : variant.isUnit = true
  written : ∃ arguments,
    (variant.attrs.filter fun attr => attr.path.isIdent "choice").map Attribute.style = [.list arguments] ∧
      ChoiceEntries arguments args

structure DeclaresChoice (kind : ChoiceKind) (variant : Variant) (choice : CommandChoiceDescriptor) : Prop where
  declared : ∃ args, Attributed variant args ∧ args.name = some choice.name ∧
    MeansValue kind variant.ident args.value choice.value
  name : 1 ≤ choice.name.length ∧ choice.name.length ≤ 100

def FloatValued (variant : Variant) : Prop :=
  ∃ args expression value, Attributed variant args ∧ args.value = some expression ∧ ValueLiteral expression (.number value)

/-- An enum of the kind declares its choices. Integers alone are not numbers. -/
structure DeclaresEnum (kind : ChoiceKind) (variants : List Variant) (choices : List CommandChoiceDescriptor) : Prop where
  inhabited : 1 ≤ variants.length
  few : variants.length ≤ Options.maxChoices
  declares : List.Forall₂ (DeclaresChoice kind) variants choices
  float : kind = .number → ∃ variant ∈ variants, FloatValued variant
  names : (choices.map (·.name)).Nodup
  values : choices.Pairwise fun a b => accepts a.value b.value = false

/-- A finite `f64` is printed so that it can be read back; zero is printed `0`. -/
structure Faithful (display : F64 → String) : Prop where
  round : ∀ x y, x.isFinite = true → y.isFinite = true → display x = display y → x = y
  zero : display F64.zero = "0"

/-! ## One variant -/

theorem variantValue_iff {ident : Ident} {expression : Option Expr} {value : Option ParsedValue} :
    variantValue ident expression = .ok value ↔
      (expression = none ∧ value = none ∧ ident.unraw.length ≤ maxChoiceStringValue) ∨
        ∃ e parsed, expression = some e ∧ value = some parsed ∧ ValueLiteral e parsed := by
  constructor
  · exact variantValue_ok
  · intro h
    rcases h with ⟨rfl, rfl, hlength⟩ | ⟨e, parsed, rfl, rfl, hliteral⟩
    · exact if_neg (Nat.not_lt.mpr hlength)
    · exact map_ok.mpr ⟨parsed, parseValue_iff.mpr hliteral, rfl⟩

/-- The value a variant is registered with is the value it means. -/
theorem meansValue_iff {kind : ChoiceKind} {ident : Ident} {name : String} {expression : Option Expr}
    {value : CommandChoiceValue} :
    (∃ parsed, variantValue ident expression = .ok parsed ∧ choiceValue ⟨ident.unraw, name, parsed⟩ kind = .ok value) ↔
      MeansValue kind ident expression value := by
  constructor
  · intro h
    obtain ⟨parsed, hparsed, hvalue⟩ := h
    rcases variantValue_iff.mp hparsed with ⟨rfl, rfl, hlength⟩ | ⟨e, literal, rfl, rfl, hliteral⟩
    · cases kind <;> cases hvalue
      exact .omitted hlength
    · cases kind <;> cases literal <;> cases hvalue
      · exact .string hliteral
      · exact .integer hliteral
      · exact .widened hliteral
      · exact .number hliteral
  · intro h
    cases h with
    | omitted hlength => exact ⟨none, variantValue_iff.mpr (.inl ⟨rfl, rfl, hlength⟩), rfl⟩
    | string hliteral => exact ⟨_, variantValue_iff.mpr (.inr ⟨_, _, rfl, rfl, hliteral⟩), rfl⟩
    | integer hliteral => exact ⟨_, variantValue_iff.mpr (.inr ⟨_, _, rfl, rfl, hliteral⟩), rfl⟩
    | widened hliteral => exact ⟨_, variantValue_iff.mpr (.inr ⟨_, _, rfl, rfl, hliteral⟩), rfl⟩
    | number hliteral => exact ⟨_, variantValue_iff.mpr (.inr ⟨_, _, rfl, rfl, hliteral⟩), rfl⟩

theorem parseVariant_iff {variant : Variant} {choice : VariantChoice} :
    parseVariant variant = .ok choice ↔
      choice.variant = variant.ident.unraw ∧ (1 ≤ choice.name.length ∧ choice.name.length ≤ 100) ∧
        ∃ args, Attributed variant args ∧ args.name = some choice.name ∧
          variantValue variant.ident args.value = .ok choice.value := by
  constructor
  · intro h
    obtain ⟨hunit, hident, hname, arguments, args, hstyle, hentries, hdeclared, hvalue⟩ := parseVariant_ok h
    exact ⟨hident, hname, args, ⟨hunit, arguments, hstyle, hentries⟩, hdeclared, hvalue⟩
  · intro h
    obtain ⟨hident, hname, args, ⟨hunit, arguments, hstyle, hentries⟩, hdeclared, hvalue⟩ := h
    obtain ⟨attr, hone, hattr⟩ := List.map_eq_singleton_iff.mp hstyle
    have hfound : choiceAttribute none variant.attrs = .ok (some attr) := choiceAttribute_iff.mpr hone
    have hargs : parseArgs attr.style = .ok args := by
      rw [hattr]
      exact (parseChoiceArgs_iff arguments args).mpr hentries
    obtain ⟨ident, name, value⟩ := choice
    cases hident
    simp only [parseVariant, hunit, Bool.not_true, Bool.false_eq_true, if_false, hfound, hargs, hdeclared,
      (validateChoiceName_iff name).mpr hname, hvalue]
    rfl

theorem declaresChoice_iff {kind : ChoiceKind} {variant : Variant} {described : CommandChoiceDescriptor} :
    (∃ choice, parseVariant variant = .ok choice ∧ descriptor kind choice = .ok described) ↔
      DeclaresChoice kind variant described := by
  constructor
  · intro h
    obtain ⟨⟨ident, name, parsed⟩, hparse, hdescribed⟩ := h
    obtain ⟨hident, hname, args, hattributed, hdeclared, hparsed⟩ := parseVariant_iff.mp hparse
    obtain ⟨hsame, hvalue⟩ := descriptor_ok hdescribed
    cases hident
    rw [← hsame] at hname hdeclared
    exact ⟨⟨args, hattributed, hdeclared, meansValue_iff.mp ⟨parsed, hparsed, hvalue⟩⟩, hname⟩
  · intro h
    obtain ⟨⟨args, hattributed, hdeclared, hmeans⟩, hname⟩ := h
    obtain ⟨parsed, hparsed, hvalue⟩ := (@meansValue_iff kind variant.ident described.name _ _).mpr hmeans
    exact ⟨⟨variant.ident.unraw, described.name, parsed⟩,
      parseVariant_iff.mpr ⟨rfl, hname, args, hattributed, hdeclared, hparsed⟩, map_ok.mpr ⟨_, hvalue, rfl⟩⟩

/-! ## The kind -/

def fits : ChoiceKind → Option ParsedValue → Bool
  | .string, none => true
  | .string, some (.string _) => true
  | .integer, some (.integer _) => true
  | .number, some (.integer _) => true
  | .number, some (.number _) => true
  | _, _ => false

theorem choiceValue_fits {choice : VariantChoice} {kind : ChoiceKind} {value : CommandChoiceValue}
    (h : choiceValue choice kind = .ok value) : fits kind choice.value = true := by
  obtain ⟨ident, name, parsed⟩ := choice
  rcases parsed with _ | (_ | _ | _) <;> cases kind <;> first | rfl | cases h

def Textual (value : Option ParsedValue) : Prop := value = none ∨ ∃ text, value = some (.string text)

theorem fits_textual {kind : ChoiceKind} {value : Option ParsedValue} (h : fits kind value = true) :
    Textual value ↔ kind = .string := by
  rcases value with _ | (text | n | x)
  · cases kind <;> simp_all [fits, Textual]
  · cases kind <;> simp_all [fits, Textual]
  · cases kind <;> simp_all [fits, Textual]
  · cases kind <;> simp_all [fits, Textual]

theorem textual_of_any {choices : List VariantChoice} {p : VariantChoice → Bool}
    (h : ((choices.any fun choice => choice.value == none) || choices.any p) = true)
    (hp : ∀ choice, p choice = true → ∃ text, choice.value = some (.string text)) :
    ∃ choice ∈ choices, Textual choice.value := by
  simp only [Bool.or_eq_true, List.any_eq_true] at h
  rcases h with ⟨choice, hc, h⟩ | ⟨choice, hc, h⟩
  · exact ⟨choice, hc, .inl (beq_iff_eq.mp h)⟩
  · exact ⟨choice, hc, .inr (hp choice h)⟩

/-- What decides the kind: texts among scalars are refused, and one number is enough. -/
theorem inferKind_cases (choices : List VariantChoice) :
    (∃ error, inferKind choices = .error error ∧ (∃ choice ∈ choices, Textual choice.value) ∧
        ∃ choice ∈ choices, ¬ Textual choice.value) ∨
      (inferKind choices = .ok .string ∧ ∃ choice ∈ choices, Textual choice.value) ∨
      (inferKind choices = .ok .number ∧ (∀ choice ∈ choices, ¬ Textual choice.value) ∧
        ∃ choice ∈ choices, ∃ x, choice.value = some (.number x)) ∨
      (inferKind choices = .ok .integer ∧ (∀ choice ∈ choices, ¬ Textual choice.value) ∧
        ∀ choice ∈ choices, ∀ x, choice.value ≠ some (.number x)) := by
  unfold inferKind
  dsimp only
  split
  · rename_i hmixed
    simp only [Bool.and_eq_true] at hmixed
    refine .inl ⟨_, rfl, textual_of_any hmixed.1 fun choice h => ?_, ?_⟩
    · split at h
      · rename_i text htext
        exact ⟨text, htext⟩
      · cases h
    · simp only [Bool.or_eq_true, List.any_eq_true] at hmixed
      rcases hmixed.2 with ⟨choice, hc, h⟩ | ⟨choice, hc, h⟩
      · split at h
        · rename_i n hn
          exact ⟨choice, hc, by simp [Textual, hn]⟩
        · cases h
      · split at h
        · rename_i x hx
          exact ⟨choice, hc, by simp [Textual, hx]⟩
        · cases h
  split
  · rename_i htext
    refine .inr (.inl ⟨rfl, textual_of_any htext fun choice h => ?_⟩)
    split at h
    · rename_i text htext
      exact ⟨text, htext⟩
    · cases h
  rename_i htext
  simp only [Bool.or_eq_true, List.any_eq_true, not_or, not_exists, not_and] at htext
  have hnone : ∀ choice ∈ choices, ¬ Textual choice.value := by
    intro choice hc ht
    rcases ht with hvalue | ⟨text, hvalue⟩
    · exact htext.1 choice hc (by rw [hvalue]; rfl)
    · exact htext.2 choice hc (by rw [hvalue])
  split
  · rename_i hnumber
    obtain ⟨choice, hc, h⟩ := List.any_eq_true.mp hnumber
    refine .inr (.inr (.inl ⟨rfl, hnone, choice, hc, ?_⟩))
    split at h
    · rename_i x hx
      exact ⟨x, hx⟩
    · cases h
  · rename_i hnumber
    refine .inr (.inr (.inr ⟨rfl, hnone, fun choice hc x hvalue => ?_⟩))
    exact hnumber (List.any_eq_true.mpr ⟨choice, hc, by rw [hvalue]⟩)

/-- The kind that is inferred for variants described under it: of scalars, number exactly if one of them is. -/
theorem inferKind_iff {kind : ChoiceKind} {choices : List VariantChoice} (hsome : choices ≠ [])
    (hfits : ∀ choice ∈ choices, fits kind choice.value = true) :
    inferKind choices = .ok kind ↔ (kind = .number → ∃ choice ∈ choices, ∃ x, choice.value = some (.number x)) := by
  have hkind : ∀ choice ∈ choices, Textual choice.value ↔ kind = .string := fun choice hc => fits_textual (hfits choice hc)
  obtain ⟨some, hmem⟩ := List.exists_mem_of_ne_nil choices hsome
  rcases inferKind_cases choices with ⟨error, -, ⟨a, ha, hta⟩, b, hb, htb⟩ | ⟨h, a, ha, hta⟩ | ⟨h, hnone, a, ha, x, hx⟩ |
    ⟨h, hnone, hno⟩
  · exact absurd ((hkind b hb).mpr ((hkind a ha).mp hta)) htb
  · obtain rfl := (hkind a ha).mp hta
    exact ⟨fun _ hk => (by cases hk), fun _ => h⟩
  · have hnumber := hfits a ha
    rw [hx] at hnumber
    cases kind with
    | number => exact ⟨fun _ _ => ⟨a, ha, x, hx⟩, fun _ => h⟩
    | _ => cases hnumber
  · cases kind with
    | string => exact absurd ((hkind some hmem).mpr rfl) (hnone some hmem)
    | integer => exact ⟨fun _ hk => (by cases hk), fun _ => h⟩
    | number =>
      rw [h]
      refine ⟨fun hk => (by cases hk), fun hfloat => ?_⟩
      obtain ⟨a, ha, x, hx⟩ := hfloat rfl
      exact absurd hx (hno a ha x)

/-! ## The texts of values -/

theorem widened_finite {expression : Expr} {value : Int} (h : ValueLiteral expression (.integer value)) :
    (F64.ofInt value).isFinite = true := by
  cases h with
  | integer _ hbound =>
    have hrange := hbound.2
    unfold IntegerInRange minIntegerValue maxIntegerValue at hrange
    exact F64.ofInt_finite (by omega)

theorem number_finite {expression : Expr} {value : F64} (h : ValueLiteral expression (.number value)) :
    value.isFinite = true := by
  cases h with
  | number _ hbound => exact hbound.2.1

theorem meansValue_pair {kind : ChoiceKind} {ident ident' : Ident} {expression expression' : Option Expr}
    {a b : CommandChoiceValue} (ha : MeansValue kind ident expression a) (hb : MeansValue kind ident' expression' b) :
    (∃ s t, a = .string s ∧ b = .string t) ∨ (∃ m n, a = .integer m ∧ b = .integer n) ∨
      ∃ x y : F64, a = .number x ∧ b = .number y ∧ x.isFinite = true ∧ y.isFinite = true := by
  cases ha with
  | omitted => cases hb <;> exact .inl ⟨_, _, rfl, rfl⟩
  | string => cases hb <;> exact .inl ⟨_, _, rfl, rfl⟩
  | integer =>
    cases hb with
    | integer => exact .inr (.inl ⟨_, _, rfl, rfl⟩)
  | widened ha =>
    have hx := widened_finite ha
    cases hb with
    | widened hb => exact .inr (.inr ⟨_, _, rfl, rfl, hx, widened_finite hb⟩)
    | number hb => exact .inr (.inr ⟨_, _, rfl, rfl, hx, number_finite hb⟩)
  | number ha =>
    have hx := number_finite ha
    cases hb with
    | widened hb => exact .inr (.inr ⟨_, _, rfl, rfl, hx, widened_finite hb⟩)
    | number hb => exact .inr (.inr ⟨_, _, rfl, rfl, hx, number_finite hb⟩)

theorem numberKey_iff {display : F64 → String} (hdisplay : Faithful display) {x y : F64} (hx : x.isFinite = true)
    (hy : y.isFinite = true) : numberKey display x = numberKey display y ↔ y.eq x = true := by
  have htail : ∀ s : String, "n:0" = "n:" ++ s → s = "0" := by
    intro s h
    exact ((String.append_right_inj "n:").mp (show "n:" ++ "0" = "n:" ++ s from h)).symm
  have honly : ∀ {z : F64}, z.isFinite = true → display z = "0" → z.eq F64.zero = true := by
    intro z hz h
    rw [hdisplay.round z F64.zero hz (by decide) (h.trans hdisplay.zero.symm)]
    decide
  constructor
  · intro h
    unfold numberKey at h
    by_cases hx0 : x.eq F64.zero = true
    · by_cases hy0 : y.eq F64.zero = true
      · simp only [F64.eq, Bool.and_eq_true, beq_iff_eq] at hx0 hy0 ⊢
        exact ⟨⟨hy0.1.1, hx0.1.1⟩, hy0.2.trans hx0.2.symm⟩
      · rw [if_pos hx0, if_neg hy0] at h
        exact absurd (honly hy (htail _ h)) hy0
    · by_cases hy0 : y.eq F64.zero = true
      · rw [if_neg hx0, if_pos hy0] at h
        exact absurd (honly hx (htail _ h.symm)) hx0
      · rw [if_neg hx0, if_neg hy0, String.append_right_inj] at h
        rw [hdisplay.round x y hx hy h]
        exact F64.eq_self (F64.not_nan_of_finite hy)
  · intro h
    exact @Options.keyOf_accepts display (.number x) (.number y) h

/-- Two values of one enum have one text exactly if the generated code takes them for the same. -/
theorem keyOf_iff {display : F64 → String} (hdisplay : Faithful display) {kind : ChoiceKind} {ident ident' : Ident}
    {expression expression' : Option Expr} {a b : CommandChoiceValue} (ha : MeansValue kind ident expression a)
    (hb : MeansValue kind ident' expression' b) : keyOf display a = keyOf display b ↔ accepts a b = true := by
  rcases meansValue_pair ha hb with ⟨s, t, rfl, rfl⟩ | ⟨m, n, rfl, rfl⟩ | ⟨x, y, rfl, rfl, hx, hy⟩
  · simp only [keyOf, accepts, beq_iff_eq]
    exact ⟨Eq.symm, Eq.symm⟩
  · simp only [keyOf, accepts, String.append_right_inj, beq_iff_eq]
    exact ⟨fun h => (Int.repr_injective h).symm, fun h => congrArg toString h.symm⟩
  · exact numberKey_iff hdisplay hx hy

/-! ## The expansion -/

/-- The loop of `validate_duplicates` over described variants. -/
theorem validateDuplicates_iff {display : F64 → String} {kind : ChoiceKind} {choices : List VariantChoice}
    {described : List CommandChoiceDescriptor}
    (h : List.Forall₂ (fun choice d => descriptor kind choice = .ok d) choices described) :
    ∀ {names values : List String}, validateDuplicates display kind names values choices = .ok () ↔
      Fresh (·.name) names described ∧ Fresh (fun d : CommandChoiceDescriptor => keyOf display d.value) values described := by
  induction h with
  | nil =>
    intro names values
    exact ⟨fun _ => ⟨fresh_nil _ _, fresh_nil _ _⟩, fun _ => rfl⟩
  | @cons choice d choices described hd _ ih =>
    intro names values
    obtain ⟨hname, hvalue⟩ := descriptor_ok hd
    rw [fresh_cons, fresh_cons, validateDuplicates, valueKey_value hvalue, ← hname]
    by_cases hseen : d.name ∈ names
    · simp [hseen]
    · by_cases hkey : keyOf display d.value ∈ values
      · simp [hseen, hkey]
      · simp [hseen, hkey, ih]

theorem deriveChoice_kind {display : F64 → String} {choices : List VariantChoice} {kind : ChoiceKind}
    (h : Options.deriveChoice display choices = .ok kind) : inferKind choices = .ok kind := by
  unfold Options.deriveChoice at h
  split at h
  · cases h
  split at h
  · cases h
  split at h
  · cases h
  split at h
  · cases h
  rename_i hkind
  split at h
  · cases h
  · cases h
    exact hkind

theorem Attributed.unique {variant : Variant} {args other : ChoiceArgs} (h : Attributed variant args)
    (h' : Attributed variant other) : args = other := by
  obtain ⟨arguments, hstyle, hentries⟩ := h.written
  obtain ⟨arguments', hstyle', hentries'⟩ := h'.written
  rw [hstyle] at hstyle'
  cases hstyle'
  have hread := ((parseChoiceArgs_iff arguments args).mpr hentries).symm.trans
    ((parseChoiceArgs_iff arguments other).mpr hentries')
  cases hread
  rfl

theorem floatValued_iff {variant : Variant} {choice : VariantChoice} (h : parseVariant variant = .ok choice) :
    FloatValued variant ↔ ∃ x, choice.value = some (.number x) := by
  obtain ⟨-, -, args, hattributed, -, hvalue⟩ := parseVariant_iff.mp h
  constructor
  · intro hfloat
    obtain ⟨other, expression, x, hother, hexpression, hliteral⟩ := hfloat
    obtain rfl := hattributed.unique hother
    rw [variantValue_iff.mpr (.inr ⟨expression, _, hexpression, rfl, hliteral⟩)] at hvalue
    exact ⟨x, (Except.ok.inj hvalue).symm⟩
  · intro hnumber
    obtain ⟨x, hx⟩ := hnumber
    rcases variantValue_iff.mp hvalue with ⟨-, hnone, -⟩ | ⟨expression, parsed, hexpression, hsome, hliteral⟩
    · cases hnone.symm.trans hx
    · cases hsome.symm.trans hx
      exact ⟨args, expression, x, hattributed, hexpression, hliteral⟩

/-- The values of an enum are apart as texts exactly if they are apart for the generated code. -/
theorem keys_nodup {display : F64 → String} (hdisplay : Faithful display) {kind : ChoiceKind} {variants : List Variant}
    {choices : List CommandChoiceDescriptor} (h : List.Forall₂ (DeclaresChoice kind) variants choices) :
    (choices.map fun choice => keyOf display choice.value).Nodup ↔
      choices.Pairwise fun a b => accepts a.value b.value = false := by
  have hkey : ∀ a ∈ choices, ∀ b ∈ choices,
      keyOf display a.value ≠ keyOf display b.value ↔ accepts a.value b.value = false := by
    intro a ha b hb
    obtain ⟨variant, -, hva⟩ := forall₂_mem_right h ha
    obtain ⟨other, -, hvb⟩ := forall₂_mem_right h hb
    obtain ⟨args, -, -, hma⟩ := hva.declared
    obtain ⟨args', -, -, hmb⟩ := hvb.declared
    rw [ne_eq, keyOf_iff hdisplay hma hmb, Bool.not_eq_true]
  rw [List.Nodup, List.pairwise_map]
  constructor
  · intro hp
    exact hp.imp_of_mem fun ha hb hne => (hkey _ ha _ hb).mp hne
  · intro hp
    exact hp.imp_of_mem fun ha hb hne => (hkey _ ha _ hb).mpr hne

theorem expandChoice_declares {display : F64 → String} {input : DeriveInput} {derived : Derived display}
    (h : expandChoice display input = .ok derived) :
    input.generic = false ∧ ∃ variants, input.data = .enum variants ∧ DeclaresEnum derived.kind variants derived.choices := by
  have hgeneric : input.generic = false := by
    by_contra hgeneric
    rw [Bool.not_eq_false] at hgeneric
    rw [expandChoice, if_pos hgeneric] at h
    cases h
  obtain ⟨variants, hdata, hparse⟩ := expandChoice_ok h
  obtain ⟨hsome, hfew, hread⟩ := parseVariants_ok hparse
  have hdeclares : List.Forall₂ (DeclaresChoice derived.kind) variants derived.choices :=
    (collect_trans (collect_iff.mpr hread) (collect_iff.mp derived.described)).imp fun _ _ => declaresChoice_iff.mp
  refine ⟨hgeneric, variants, hdata, hsome, hfew, hdeclares, fun hnumber => ?_, derived.names_nodup,
    derived.values_pairwise⟩
  have hkind := deriveChoice_kind derived.derived
  rw [hnumber] at hkind
  have hfloat : ∃ choice ∈ derived.variants, ∃ x, choice.value = some (.number x) := by
    rcases inferKind_cases derived.variants with ⟨_, h, -⟩ | ⟨h, -⟩ | ⟨-, -, hfloat⟩ | ⟨h, -⟩
    · cases h.symm.trans hkind
    · cases h.symm.trans hkind
    · exact hfloat
    · cases h.symm.trans hkind
  obtain ⟨choice, hchoice, hx⟩ := hfloat
  obtain ⟨variant, hvariant, hparsed⟩ := forall₂_mem_right hread hchoice
  exact ⟨variant, hvariant, (floatValued_iff hparsed).mpr hx⟩

/-- What is so declared is accepted, as it is declared. -/
theorem expandChoice_declared {display : F64 → String} (hdisplay : Faithful display) {input : DeriveInput} {kind : ChoiceKind}
    {variants : List Variant} {choices : List CommandChoiceDescriptor} (hgeneric : input.generic = false)
    (hdata : input.data = .enum variants) (h : DeclaresEnum kind variants choices) :
    ∃ derived : Derived display, expandChoice display input = .ok derived ∧ derived.kind = kind ∧ derived.choices = choices := by
  obtain ⟨parsed, hcollect, hdescribed⟩ := collect_split (h.declares.imp fun _ _ => declaresChoice_iff.mpr)
  have hread := collect_iff.mp hcollect
  have hlength := hread.length_eq
  have hsome := h.inhabited
  have hfew := h.few
  have hparse : parseVariants variants = .ok parsed := by
    have hne : variants ≠ [] := List.ne_nil_of_length_pos (by omega)
    simp only [parseVariants, List.isEmpty_iff, if_neg hne, if_neg (Nat.not_lt.mpr hfew), hcollect]
  have hkind : inferKind parsed = .ok kind := by
    have hfits : ∀ choice ∈ parsed, fits kind choice.value = true := by
      intro choice hc
      obtain ⟨described, -, hd⟩ := forall₂_mem_left hdescribed hc
      exact choiceValue_fits (descriptor_ok hd).2
    refine (inferKind_iff (List.ne_nil_of_length_pos (by omega)) hfits).mpr fun hnumber => ?_
    obtain ⟨variant, hvariant, hfloat⟩ := h.float hnumber
    obtain ⟨choice, hchoice, hparsed⟩ := forall₂_mem_left hread hvariant
    exact ⟨choice, hchoice, (floatValued_iff hparsed).mp hfloat⟩
  have hdistinct : validateDuplicates display kind [] [] parsed = .ok () := by
    rw [validateDuplicates_iff hdescribed, fresh_unseen, fresh_unseen]
    exact ⟨h.names, (keys_nodup hdisplay h.declares).mpr h.values⟩
  have hall : collect (descriptor kind) parsed = .ok choices := collect_iff.mpr hdescribed
  unfold expandChoice
  rw [if_neg (ne_true_of_eq_false hgeneric)]
  split
  · rename_i hother
    cases hdata.symm.trans hother
  · rename_i variants' hdata'
    cases hdata.symm.trans hdata'
    split
    · rename_i hfailed
      cases hparse.symm.trans hfailed
    · rename_i parsed' hparse'
      cases hparse.symm.trans hparse'
      split
      · rename_i hfailed
        cases hkind.symm.trans hfailed
      · rename_i kind' hkind'
        cases hkind.symm.trans hkind'
        split
        · rename_i hfailed
          cases hdistinct.symm.trans hfailed
        · split
          · rename_i hfailed
            cases hall.symm.trans hfailed
          · rename_i choices' hall'
            cases hall.symm.trans hall'
            exact ⟨_, rfl, rfl, rfl⟩

/-- With an `f64` printed faithfully the derive accepts exactly the enums that declare
    their choices, and generates the kind and the choices they declare. -/
theorem choice_enum_exact {display : F64 → String} (hdisplay : Faithful display) (input : DeriveInput) (kind : ChoiceKind)
    (choices : List CommandChoiceDescriptor) :
    (∃ derived : Derived display, expandChoice display input = .ok derived ∧ derived.kind = kind ∧
        derived.choices = choices) ↔
      input.generic = false ∧ ∃ variants, input.data = .enum variants ∧ DeclaresEnum kind variants choices := by
  constructor
  · intro h
    obtain ⟨derived, hexpand, rfl, rfl⟩ := h
    exact expandChoice_declares hexpand
  · intro h
    obtain ⟨hgeneric, variants, hdata, hdeclares⟩ := h
    exact expandChoice_declared hdisplay hgeneric hdata hdeclares

def bits (x : F64) : String := (if x.sign then "-" else "+") ++ x.magnitude.repr

theorem bits_inj {x y : F64} (h : bits x = bits y) : x = y := by
  have hsign : x.sign = y.sign := by
    have hhead := congrArg (fun s : String => s.toList.head?) h
    unfold bits at hhead
    cases hx : x.sign <;> cases hy : y.sign <;> simp_all
  unfold bits at h
  rw [hsign, String.append_right_inj] at h
  obtain ⟨hexponent, hmantissa⟩ := F64.magnitude_inj (Nat.repr_injective h)
  cases x
  cases y
  simp_all

theorem bits_head (x : F64) : (bits x).toList.head? = some '-' ∨ (bits x).toList.head? = some '+' := by
  unfold bits
  cases x.sign <;> simp

def shown (x : F64) : String :=
  if x = F64.zero then "0"
  else if x = F64.ofDecimal 5 (-1) false then "0.5"
  else if x = F64.ofInt 1 then "1"
  else bits x

theorem shown_faithful : Faithful shown where
  round x y _ _ h := by
    have hbits : ∀ z, bits z ≠ "0" ∧ bits z ≠ "0.5" ∧ bits z ≠ "1" := by
      intro z
      refine ⟨?_, ?_, ?_⟩ <;>
        (intro hz; have := bits_head z; rw [hz] at this; exact absurd this (by decide))
    have hx := hbits x
    have hy := hbits y
    unfold shown at h
    split_ifs at h <;> first | exact bits_inj h | simp_all
  zero := if_pos rfl

theorem choice_enum_exact_ratio :
    ∃ derived : Derived shown, expandChoice shown ratio = .ok derived ∧ derived.kind = .number ∧
      derived.choices = [⟨"Half", .number (F64.ofDecimal 5 (-1) false)⟩, ⟨"Full", .number (F64.ofInt 1)⟩] := by
  refine (choice_enum_exact shown_faithful ratio .number _).mpr ⟨rfl, _, rfl, ?_⟩
  refine ⟨by decide, by decide, .cons (declaresChoice_iff.mp ⟨_, rfl, rfl⟩)
    (.cons (declaresChoice_iff.mp ⟨_, rfl, rfl⟩) .nil), fun _ => ?_, by decide, ?_⟩
  · refine ⟨_, List.mem_cons_self .., ?_⟩
    exact (@floatValued_iff _ ⟨"Half", "Half", some (.number (F64.ofDecimal 5 (-1) false))⟩ rfl).mpr ⟨_, rfl⟩
  · exact List.pairwise_pair.mpr (by decide)

end GloamCommands.Macros
