/-
  GloamCommands.Execution.Autocomplete — answering an autocomplete interaction
  (`execute_autocomplete` in crates/gloam-commands/src/framework.rs).

  The handler's choices are checked against Discord's limits and the focused option's
  kind, then sent with one callback. `rest` is the callback's outcome.
  - `autocompleteResponseChoices_iff`: what is sent is the handler's choices, all within
    the limits; anything else is an `InvalidAutocompleteResponse`.
  - `autocompleteResponseChoices_ok`: a list is passed on whole and unchanged, or refused.
  - `executeAutocomplete_separate`: no policy, hook or cooldown is touched.
-/

import GloamCommands.Core.Registration
import GloamCommands.Execution.Lifecycle

namespace GloamCommands.Execution

open Lib (F64)

variable {D : Type}

def maxAutocompleteChoices : Nat := 25
def maxAutocompleteNameLength : Nat := 100
def maxAutocompleteStringLength : Nat := 100
def minAutocompleteIntegerValue : Int := -9007199254740991
def maxAutocompleteIntegerValue : Int := 9007199254740991
def minAutocompleteNumberValue : F64 := F64.ofInt (-9007199254740992)
def maxAutocompleteNumberValue : F64 := F64.ofInt 9007199254740992

/-- The value of a choice, as the focused option's kind allows it. -/
def autocompleteResponseValue (optionKind : ApplicationCommandOptionType) (value : AutocompleteChoiceValue) :
    Except Error ApplicationCommandChoiceValue :=
  match optionKind, value with
  | .string, .string value =>
    if value.length > maxAutocompleteStringLength then
      .error (.invalidAutocompleteResponse
        s!"string choice values must contain at most {maxAutocompleteStringLength} characters")
    else .ok (.string value)
  | .integer, .integer value =>
    if !(decide (minAutocompleteIntegerValue ≤ value) && decide (value ≤ maxAutocompleteIntegerValue)) then
      .error (.invalidAutocompleteResponse "integer choice values must be within Discord's safe integer range")
    else .ok (.integer value)
  | .number, .number value =>
    if !value.isFinite || !(minAutocompleteNumberValue.le value && value.le maxAutocompleteNumberValue) then
      .error (.invalidAutocompleteResponse
        "number choice values must be finite and within Discord's numeric range")
    else .ok (.number value)
  | _, _ =>
    .error (.invalidAutocompleteResponse "choice value type does not match the focused option type")

def autocompleteResponseChoice (optionKind : ApplicationCommandOptionType) (choice : AutocompleteChoice) :
    Except Error ApplicationCommandOptionChoice :=
  let nameLength := choice.name.length
  if nameLength = 0 ∨ nameLength > maxAutocompleteNameLength then
    .error (.invalidAutocompleteResponse s!"choice names must contain 1 to {maxAutocompleteNameLength} characters")
  else
    match autocompleteResponseValue optionKind choice.value with
    | .error error => .error error
    | .ok value => .ok ⟨choice.name, none, value⟩

def collectChoices (optionKind : ApplicationCommandOptionType) :
    List AutocompleteChoice → Except Error (List ApplicationCommandOptionChoice)
  | [] => .ok []
  | choice :: rest =>
    match autocompleteResponseChoice optionKind choice with
    | .error error => .error error
    | .ok choice =>
      match collectChoices optionKind rest with
      | .error error => .error error
      | .ok rest => .ok (choice :: rest)

def autocompleteResponseChoices (optionKind : ApplicationCommandOptionType) (choices : List AutocompleteChoice) :
    Except Error (List ApplicationCommandOptionChoice) :=
  if choices.length > maxAutocompleteChoices then
    .error (.invalidAutocompleteResponse s!"handlers may return at most {maxAutocompleteChoices} choices")
  else collectChoices optionKind choices

def executeAutocomplete (rest : Nat → String → List ApplicationCommandOptionChoice → Except Error Unit)
    (optionKind : ApplicationCommandOptionType) (handler : AutocompleteHandler D) (context : AutocompleteContext)
    (w : World D) : Except Error Unit × World D :=
  match handler context w.data with
  | (.error error, data) =>
    (.error error, { w with data := data, trace := w.trace ++ [⟨.autocompleteHandler, .error error⟩] })
  | (.ok choices, data) =>
    let w := { w with data := data, trace := w.trace ++ [⟨.autocompleteHandler, .ok ()⟩] }
    match autocompleteResponseChoices optionKind choices with
    | .error error => (.error error, w)
    | .ok choices =>
      let outcome := rest context.interaction.id context.interaction.token choices
      (outcome, { w with trace := w.trace ++ [⟨.autocompleteResponse, outcome⟩] })

/-! ## Discord's limits -/

inductive Completes : ApplicationCommandOptionType → AutocompleteChoiceValue → ApplicationCommandChoiceValue → Prop
  | string {value : String} : value.length ≤ 100 → Completes .string (.string value) (.string value)
  | integer {value : Int} : -9007199254740991 ≤ value → value ≤ 9007199254740991 →
      Completes .integer (.integer value) (.integer value)
  | number {value : F64} : value.isFinite = true → (F64.ofInt (-9007199254740992)).le value = true →
      value.le (F64.ofInt 9007199254740992) = true → Completes .number (.number value) (.number value)

/-- A choice within the limits, and what is sent for it. -/
structure Acceptable (optionKind : ApplicationCommandOptionType) (choice : AutocompleteChoice)
    (sent : ApplicationCommandOptionChoice) : Prop where
  nonempty : choice.name.length ≠ 0
  short : choice.name.length ≤ 100
  name : sent.name = choice.name
  localizations : sent.nameLocalizations = none
  value : Completes optionKind choice.value sent.value

theorem autocompleteResponseValue_iff (optionKind : ApplicationCommandOptionType) (value : AutocompleteChoiceValue)
    (sent : ApplicationCommandChoiceValue) :
    autocompleteResponseValue optionKind value = .ok sent ↔ Completes optionKind value sent := by
  constructor
  · intro h
    unfold autocompleteResponseValue at h
    split at h
    · split at h
      · cases h
      · rename_i hle
        cases h
        exact .string (Nat.le_of_not_lt hle)
    · split at h
      · cases h
      · rename_i hin
        cases h
        simp only [Bool.not_eq_true', Bool.not_eq_false, Bool.and_eq_true, decide_eq_true_eq] at hin
        exact .integer hin.1 hin.2
    · split at h
      · cases h
      · rename_i hin
        cases h
        simp only [Bool.or_eq_true, Bool.not_eq_true', not_or, Bool.not_eq_false, Bool.and_eq_true] at hin
        exact .number hin.1 hin.2.1 hin.2.2
    · cases h
  · intro h
    cases h with
    | string hle =>
      exact if_neg (Nat.not_lt.mpr hle)
    | integer hlo hhi =>
      refine if_neg ?_
      simp only [Bool.not_eq_true', Bool.not_eq_false, Bool.and_eq_true, decide_eq_true_eq]
      exact ⟨hlo, hhi⟩
    | number hf hlo hhi =>
      refine if_neg ?_
      simp only [Bool.or_eq_true, Bool.not_eq_true', not_or, Bool.not_eq_false, Bool.and_eq_true]
      exact ⟨hf, hlo, hhi⟩

theorem autocompleteResponseChoice_iff (optionKind : ApplicationCommandOptionType) (choice : AutocompleteChoice)
    (sent : ApplicationCommandOptionChoice) :
    autocompleteResponseChoice optionKind choice = .ok sent ↔ Acceptable optionKind choice sent := by
  unfold autocompleteResponseChoice
  dsimp only
  by_cases hname : choice.name.length = 0 ∨ choice.name.length > maxAutocompleteNameLength
  · rw [if_pos hname]
    refine ⟨fun h => (by cases h), fun h => ?_⟩
    rcases hname with h0 | hlong
    · exact absurd h0 h.nonempty
    · exact absurd h.short (Nat.not_le.mpr hlong)
  · rw [if_neg hname]
    rw [not_or] at hname
    cases hv : autocompleteResponseValue optionKind choice.value with
    | error error =>
      refine ⟨fun h => (by cases h), fun h => ?_⟩
      rw [(autocompleteResponseValue_iff _ _ _).mpr h.value] at hv
      cases hv
    | ok value =>
      have hc := (autocompleteResponseValue_iff _ _ _).mp hv
      constructor
      · intro h
        cases h
        exact ⟨hname.1, Nat.le_of_not_lt hname.2, rfl, rfl, hc⟩
      · intro h
        rw [(autocompleteResponseValue_iff _ _ _).mpr h.value] at hv
        cases hv
        rw [← h.name, ← h.localizations]

theorem collectChoices_iff (optionKind : ApplicationCommandOptionType) (choices : List AutocompleteChoice) :
    ∀ sent, collectChoices optionKind choices = .ok sent ↔ List.Forall₂ (Acceptable optionKind) choices sent := by
  induction choices with
  | nil =>
    intro sent
    rw [List.forall₂_nil_left_iff]
    exact ⟨fun h => by cases h; rfl, fun h => by rw [h]; rfl⟩
  | cons choice rest ih =>
    intro sent
    cases hc : autocompleteResponseChoice optionKind choice with
    | error error =>
      simp only [collectChoices, hc]
      refine ⟨fun h => (by cases h), fun h => ?_⟩
      cases h with
      | cons ha _ =>
        rw [(autocompleteResponseChoice_iff _ _ _).mpr ha] at hc
        cases hc
    | ok first =>
      have ha := (autocompleteResponseChoice_iff _ _ _).mp hc
      cases hr : collectChoices optionKind rest with
      | error error =>
        simp only [collectChoices, hc, hr]
        refine ⟨fun h => (by cases h), fun h => ?_⟩
        cases h with
        | cons _ hrest =>
          rw [(ih _).mpr hrest] at hr
          cases hr
      | ok others =>
        simp only [collectChoices, hc, hr]
        constructor
        · intro h
          cases h
          exact .cons ha ((ih _).mp hr)
        · intro h
          cases h with
          | cons ha' hrest =>
            rw [(autocompleteResponseChoice_iff _ _ _).mpr ha'] at hc
            rw [(ih _).mpr hrest] at hr
            cases hc
            cases hr
            rfl

/-- What is sent: at most 25 choices, each the handler's and within the limits. -/
theorem autocompleteResponseChoices_iff (optionKind : ApplicationCommandOptionType) (choices : List AutocompleteChoice)
    (sent : List ApplicationCommandOptionChoice) :
    autocompleteResponseChoices optionKind choices = .ok sent ↔
      choices.length ≤ 25 ∧ List.Forall₂ (Acceptable optionKind) choices sent := by
  unfold autocompleteResponseChoices
  by_cases hlen : choices.length > maxAutocompleteChoices
  · rw [if_pos hlen]
    exact ⟨fun h => (by cases h), fun h => absurd h.1 (Nat.not_le.mpr hlen)⟩
  · rw [if_neg hlen, collectChoices_iff]
    exact ⟨fun h => ⟨Nat.le_of_not_lt hlen, h⟩, fun h => h.2⟩

/-! ## Nothing of the command pipeline -/

def Step.isAutocomplete : Step → Bool
  | .autocompleteHandler => true
  | .autocompleteResponse => true
  | _ => false

/-- An autocomplete execution evaluates no policy, runs no hook and keeps every cooldown. -/
theorem executeAutocomplete_separate
    (rest : Nat → String → List ApplicationCommandOptionChoice → Except Error Unit)
    (optionKind : ApplicationCommandOptionType) (handler : AutocompleteHandler D) (context : AutocompleteContext)
    (w : World D) :
    (executeAutocomplete rest optionKind handler context w).2.cooldowns = w.cooldowns ∧
      ∃ steps, (executeAutocomplete rest optionKind handler context w).2.trace = w.trace ++ steps ∧
        ∀ x ∈ steps, x.step.isAutocomplete = true := by
  unfold executeAutocomplete
  cases hh : handler context w.data with
  | mk outcome data =>
    cases outcome with
    | error error => exact ⟨rfl, [⟨.autocompleteHandler, .error error⟩], rfl, by simp [Step.isAutocomplete]⟩
    | ok choices =>
      dsimp only
      cases hc : autocompleteResponseChoices optionKind choices with
      | error error => exact ⟨rfl, [⟨.autocompleteHandler, .ok ()⟩], rfl, by simp [Step.isAutocomplete]⟩
      | ok sent =>
        refine ⟨rfl, [⟨.autocompleteHandler, .ok ()⟩,
          ⟨.autocompleteResponse, rest context.interaction.id context.interaction.token sent⟩], ?_,
          by simp [Step.isAutocomplete]⟩
        simp

/-! ## All or nothing -/

def responseValue : AutocompleteChoiceValue → ApplicationCommandChoiceValue
  | .string value => .string value
  | .integer value => .integer value
  | .number value => .number value

def unchanged (choice : AutocompleteChoice) : ApplicationCommandOptionChoice :=
  ⟨choice.name, none, responseValue choice.value⟩

structure WithinLimits (optionKind : ApplicationCommandOptionType) (choice : AutocompleteChoice) : Prop where
  nonempty : 1 ≤ choice.name.length
  short : choice.name.length ≤ 100
  value : Completes optionKind choice.value (responseValue choice.value)

theorem acceptable_iff (optionKind : ApplicationCommandOptionType) (choice : AutocompleteChoice)
    (sent : ApplicationCommandOptionChoice) :
    Acceptable optionKind choice sent ↔ WithinLimits optionKind choice ∧ unchanged choice = sent := by
  constructor
  · intro h
    have hsent : sent.value = responseValue choice.value := by
      have hv := h.value
      generalize choice.value = value at hv ⊢
      generalize sent.value = response at hv ⊢
      cases hv <;> rfl
    refine ⟨⟨Nat.one_le_iff_ne_zero.mpr h.nonempty, h.short, hsent ▸ h.value⟩, ?_⟩
    rw [unchanged, ← h.name, ← h.localizations, ← hsent]
  · rintro ⟨h, rfl⟩
    exact ⟨Nat.one_le_iff_ne_zero.mp h.nonempty, h.short, rfl, rfl, h.value⟩

/-- The validator passes on exactly the lists within the limits, as they are. -/
theorem autocompleteResponseChoices_ok (optionKind : ApplicationCommandOptionType) (choices : List AutocompleteChoice)
    (sent : List ApplicationCommandOptionChoice) :
    autocompleteResponseChoices optionKind choices = .ok sent ↔
      (choices.length ≤ 25 ∧ ∀ choice ∈ choices, WithinLimits optionKind choice) ∧ sent = choices.map unchanged := by
  have hsame : List.Forall₂ (fun choice sent => unchanged choice = sent) choices sent ↔ sent = choices.map unchanged := by
    rw [← List.forall₂_map_left_iff, List.forall₂_eq_eq_eq]
    exact eq_comm
  have hacceptable : Acceptable optionKind = fun choice sent => WithinLimits optionKind choice ∧ unchanged choice = sent := by
    funext choice sent
    exact propext (acceptable_iff optionKind choice sent)
  rw [autocompleteResponseChoices_iff, hacceptable, List.forall₂_and_left, hsame, and_assoc]

structure AutocompleteCallback where
  interactionId : Nat
  interactionToken : String
  choices : List ApplicationCommandOptionChoice
  deriving DecidableEq

/-- `execute_autocomplete` with the callbacks it sends, in order. -/
def executeAutocompleteSending (rest : Nat → String → List ApplicationCommandOptionChoice → Except Error Unit)
    (optionKind : ApplicationCommandOptionType) (handler : AutocompleteHandler D) (context : AutocompleteContext)
    (w : World D) : (Except Error Unit × World D) × List AutocompleteCallback :=
  match handler context w.data with
  | (.error error, data) =>
    ((.error error, { w with data := data, trace := w.trace ++ [⟨.autocompleteHandler, .error error⟩] }), [])
  | (.ok choices, data) =>
    let w := { w with data := data, trace := w.trace ++ [⟨.autocompleteHandler, .ok ()⟩] }
    match autocompleteResponseChoices optionKind choices with
    | .error error => ((.error error, w), [])
    | .ok choices =>
      let outcome := rest context.interaction.id context.interaction.token choices
      ((outcome, { w with trace := w.trace ++ [⟨.autocompleteResponse, outcome⟩] }),
        [⟨context.interaction.id, context.interaction.token, choices⟩])

section Sending

variable (rest : Nat → String → List ApplicationCommandOptionChoice → Except Error Unit)
  (optionKind : ApplicationCommandOptionType) (handler : AutocompleteHandler D) (context : AutocompleteContext)
  (w : World D)

theorem executeAutocompleteSending_fst :
    (executeAutocompleteSending rest optionKind handler context w).1 =
      executeAutocomplete rest optionKind handler context w := by
  unfold executeAutocompleteSending executeAutocomplete
  rcases handler context w.data with ⟨_ | choices, data⟩
  · rfl
  · dsimp only
    cases autocompleteResponseChoices optionKind choices <;> rfl

theorem executeAutocompleteSending_failed {error : Error} (hret : (handler context w.data).1 = .error error) :
    (executeAutocompleteSending rest optionKind handler context w).1.1 = .error error ∧
      (executeAutocompleteSending rest optionKind handler context w).2 = [] := by
  unfold executeAutocompleteSending
  rw [show handler context w.data = (.error error, (handler context w.data).2) from Prod.ext hret rfl]
  exact ⟨rfl, rfl⟩

/-- A handler that returns choices sends what the validator passes on, in one callback. -/
theorem executeAutocompleteSending_returned {choices : List AutocompleteChoice}
    (hret : (handler context w.data).1 = .ok choices) :
    (∀ error, autocompleteResponseChoices optionKind choices = .error error →
      (executeAutocompleteSending rest optionKind handler context w).1.1 = .error error ∧
        (executeAutocompleteSending rest optionKind handler context w).2 = []) ∧
    ∀ sent, autocompleteResponseChoices optionKind choices = .ok sent →
      (executeAutocompleteSending rest optionKind handler context w).1.1 =
          rest context.interaction.id context.interaction.token sent ∧
        (executeAutocompleteSending rest optionKind handler context w).2 =
          [⟨context.interaction.id, context.interaction.token, sent⟩] := by
  unfold executeAutocompleteSending
  rw [show handler context w.data = (.ok choices, (handler context w.data).2) from Prod.ext hret rfl]
  dsimp only
  constructor
  · intro error h
    rw [h]
    exact ⟨rfl, rfl⟩
  · intro sent h
    rw [h]
    exact ⟨rfl, rfl⟩

/-- A list within the limits is sent whole and unchanged in the only callback; with one
    violation anywhere in it, or a failed handler, there is no callback. -/
theorem autocomplete_all_or_nothing :
    (∀ choices, (∃ sent, autocompleteResponseChoices optionKind choices = .ok sent) ↔
      choices.length ≤ 25 ∧ ∀ choice ∈ choices, WithinLimits optionKind choice) ∧
    (∀ choices sent, autocompleteResponseChoices optionKind choices = .ok sent → sent = choices.map unchanged) ∧
    (∀ choices, (handler context w.data).1 = .ok choices →
      (choices.length ≤ 25 ∧ ∀ choice ∈ choices, WithinLimits optionKind choice) →
      (executeAutocompleteSending rest optionKind handler context w).1.1 =
          rest context.interaction.id context.interaction.token (choices.map unchanged) ∧
        (executeAutocompleteSending rest optionKind handler context w).2 =
          [⟨context.interaction.id, context.interaction.token, choices.map unchanged⟩]) ∧
    (∀ choices, (handler context w.data).1 = .ok choices →
      ¬ (choices.length ≤ 25 ∧ ∀ choice ∈ choices, WithinLimits optionKind choice) →
      (∃ error, (executeAutocompleteSending rest optionKind handler context w).1.1 = .error error) ∧
        (executeAutocompleteSending rest optionKind handler context w).2 = []) := by
  refine ⟨fun choices => ?_, fun choices sent h => ((autocompleteResponseChoices_ok _ _ _).mp h).2,
    fun choices hret hok => ?_, fun choices hret hbad => ?_⟩
  · simp [autocompleteResponseChoices_ok]
  · exact (executeAutocompleteSending_returned rest optionKind handler context w hret).2 _
      ((autocompleteResponseChoices_ok _ _ _).mpr ⟨hok, rfl⟩)
  · cases hv : autocompleteResponseChoices optionKind choices with
    | ok sent => exact absurd ((autocompleteResponseChoices_ok _ _ _).mp hv).1 hbad
    | error error =>
      obtain ⟨hresult, hnone⟩ := (executeAutocompleteSending_returned rest optionKind handler context w hret).1 error hv
      exact ⟨⟨error, hresult⟩, hnone⟩

end Sending

end GloamCommands.Execution
