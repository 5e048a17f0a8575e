/-
  GloamCommands.Options.Spelling — whole numbers in NUMBER options.

  JSON has one kind of number, Gloamwire's scalar has two: a token without a point or an
  exponent is an `Integer`, whatever the option's kind. So a NUMBER option that a user
  fills with `1` may carry `Integer(1)` or `Number(1.0)`. The derive takes a variant
  registered as `1` and one registered as `1.0` for the same choice, and publishes both as
  the same number. Extraction matches on `Number` alone:
  - `whole_numbers_refused`: no NUMBER option reads the two spellings alike.
  - `ratio_refuses_one`: `/configure ratio: 1`, once as it is typed and once as `1.0`.
-/

import GloamCommands.Options.Choice

namespace GloamCommands.Options

open Lib (F64)

/-! ## Two spellings -/

def carrying (submitted : Submitted) (value : ApplicationCommandInteractionValue) : Submitted :=
  { submitted with value := some value }

/-- The option `name` is of kind NUMBER and carries `n`: as an integer in `whole`, and as
    `n as f64` in `floating`. -/
structure Spelled (name : String) (n : Int) (submitted : Submitted) (whole floating : CommandOptions) : Prop where
  kind : submitted.kind = .number
  whole : whole.get name = some (carrying submitted (.integer n))
  floating : floating.get name = some (carrying submitted (.number (F64.ofInt n)))

def ReadsAlike {α : Type} (option : CommandOption α) (name : String) (whole floating : CommandOptions) : Prop :=
  option.extract whole name = option.extract floating name

/-- `f64`, `Option<f64>` and every derived enum of Number kind do. -/
def SpellingBlind (name : String) (whole floating : CommandOptions) : Prop :=
  ReadsAlike f64Option name whole floating ∧ ReadsAlike (optionalOption f64Option) name whole floating ∧
    ∀ (display : F64 → String) (e : ChoiceEnum display), e.kind = .number → ReadsAlike e.option name whole floating

/-! ## What each is read as -/

section Spelled

variable {name : String} {n : Int} {submitted : Submitted} {whole floating : CommandOptions}

theorem number_extract {α : Type} {variant : ApplicationCommandInteractionValue → Option α} {expected : String}
    {options : CommandOptions} {value : ApplicationCommandInteractionValue}
    (hkind : submitted.kind = .number) (hget : options.get name = some (carrying submitted value)) :
    (scalarOption .number variant expected).extract options name = fit name expected (variant value) := by
  rw [scalar_present hget]
  exact if_pos hkind

theorem f64_whole (h : Spelled name n submitted whole floating) :
    f64Option.extract whole name = .error (.invalidOption name "f64") := number_extract h.kind h.whole

theorem f64_floating (h : Spelled name n submitted whole floating) : f64Option.extract floating name = .ok (F64.ofInt n) :=
  number_extract h.kind h.floating

theorem optional_whole (h : Spelled name n submitted whole floating) :
    (optionalOption f64Option).extract whole name = .error (.invalidOption name "f64") :=
  optional_error.mpr ⟨⟨_, h.whole⟩, f64_whole h⟩

theorem optional_floating (h : Spelled name n submitted whole floating) :
    (optionalOption f64Option).extract floating name = .ok (some (F64.ofInt n)) :=
  optional_some (f64_floating h) h.floating

variable {display : F64 → String} {e : ChoiceEnum display}

theorem number_option (hkind : e.kind = .number) (options : CommandOptions) :
    e.option.extract options name =
      e.select name ((scalarOption .number ChoiceKind.number.variant "f64").extract options name) := by
  have hoption : e.optionKind = .number := by
    unfold ChoiceEnum.optionKind
    rw [hkind]
    rfl
  rw [e.option_extract, hoption, hkind]
  rfl

theorem enum_whole (hkind : e.kind = .number) (h : Spelled name n submitted whole floating) :
    e.option.extract whole name = .error (.invalidOption name "f64") := by
  rw [number_option hkind, number_extract h.kind h.whole]
  rfl

theorem enum_floating (hkind : e.kind = .number) (h : Spelled name n submitted whole floating) :
    e.option.extract floating name = e.select name (.ok (.number (F64.ofInt n))) := by
  rw [number_option hkind, number_extract h.kind h.floating]
  rfl

theorem enum_differs (hkind : e.kind = .number) (h : Spelled name n submitted whole floating) :
    ¬ ReadsAlike e.option name whole floating := by
  unfold ReadsAlike
  rw [enum_whole hkind h, enum_floating hkind h]
  intro heq
  obtain ⟨hinvalid, -⟩ := ChoiceEnum.select_error heq.symm
  cases hinvalid

end Spelled

/-! ## No option reads them alike -/

/-- Whatever the whole number, `f64`, `Option<f64>` and every derived enum of Number kind
    refuse it spelled as an integer and not as a floating-point number. -/
theorem whole_numbers_refused {name : String} {n : Int} {submitted : Submitted} {whole floating : CommandOptions}
    (h : Spelled name n submitted whole floating) :
    ¬ ReadsAlike f64Option name whole floating ∧ ¬ ReadsAlike (optionalOption f64Option) name whole floating ∧
      (∀ (display : F64 → String) (e : ChoiceEnum display), e.kind = .number →
        ¬ ReadsAlike e.option name whole floating) ∧
      ¬ SpellingBlind name whole floating := by
  have hf64 : ¬ ReadsAlike f64Option name whole floating := by
    unfold ReadsAlike
    rw [f64_whole h, f64_floating h]
    exact fun heq => by cases heq
  have hoptional : ¬ ReadsAlike (optionalOption f64Option) name whole floating := by
    unfold ReadsAlike
    rw [optional_whole h, optional_floating h]
    exact fun heq => by cases heq
  exact ⟨hf64, hoptional, fun display e hkind => enum_differs hkind h, fun hblind => hf64 hblind.1⟩

def ratioVariants : List VariantChoice :=
  [⟨"Half", "Half", some (.number (F64.ofDecimal 5 (-1) false))⟩, ⟨"Full", "Full", some (.number (F64.ofInt 1))⟩]

def ratioSubmitted : Submitted := ⟨"ratio", .number, none, [], none⟩

def ratioOptions (value : ApplicationCommandInteractionValue) : CommandOptions := ⟨[carrying ratioSubmitted value]⟩

theorem ratio_spelled : Spelled "ratio" 1 ratioSubmitted (ratioOptions (.integer 1)) (ratioOptions (.number (F64.ofInt 1))) :=
  ⟨rfl, rfl, rfl⟩

theorem whole_numbers_refused_ratio :
    ¬ ReadsAlike f64Option "ratio" (ratioOptions (.integer 1)) (ratioOptions (.number (F64.ofInt 1))) :=
  (whole_numbers_refused ratio_spelled).1

/-- `Full` is chosen by `1.0` and refused as `1`. -/
theorem ratio_refuses_one :
    (∃ (ratio : ChoiceEnum fun x => toString x.magnitude) (full : ratio.Value),
      ratio.variants = ratioVariants ∧ ratio.kind = .number ∧ full.val = 1 ∧
      ratio.option.extract (ratioOptions (.integer 1)) "ratio" = .error (.invalidOption "ratio" "f64") ∧
      ratio.option.extract (ratioOptions (.number (F64.ofInt 1))) "ratio" = .ok full) ∧
    ¬ ∀ (n : Int) (name : String) (submitted : Submitted) (whole floating : CommandOptions),
      n.natAbs ≤ 2 ^ 53 - 1 → Spelled name n submitted whole floating → SpellingBlind name whole floating := by
  have hderive : deriveChoice (fun x => toString x.magnitude) ratioVariants = .ok .number := by decide
  let ratio : ChoiceEnum fun x => toString x.magnitude := ⟨ratioVariants, .number, hderive⟩
  let full : ratio.Value := ⟨1, Nat.lt_succ_self 1⟩
  refine ⟨⟨ratio, full, rfl, rfl, rfl, ?_, ?_⟩, fun hclaim => ?_⟩
  · exact enum_whole rfl ratio_spelled
  · rw [enum_floating rfl ratio_spelled]
    exact ratio.select_value "ratio" full
  · obtain ⟨hf64, -⟩ := hclaim 1 "ratio" ratioSubmitted _ _ (by decide) ratio_spelled
    unfold ReadsAlike at hf64
    rw [f64_whole ratio_spelled, f64_floating ratio_spelled] at hf64
    cases hf64

end GloamCommands.Options
