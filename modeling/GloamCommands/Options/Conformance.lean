/-
  GloamCommands.Options.Conformance — submissions that follow the published schema.

  Discord holds a user to the options it was sent: an option comes at most once, under a
  published name and kind, with a scalar of that kind and, where there are choices, one of
  them; a required one always comes (`Conforms`). What the generated code then reads is
  said of the published payload, not of the code's own checks. Published bounds and lengths
  are Discord's to enforce; they are no part of `Conforms`.
  - `conforming_fault`: the only fault left is a NUMBER that came as an integer.
  - `extractAll_conforming`: without one, every parameter is what was submitted for it.
  - `conforming_refused`: with one, the first such parameter is refused.
-/

import GloamCommands.Core.Registration
import GloamCommands.Options.Adapter

namespace GloamCommands.Options

open Lib (F64)

variable {display : F64 → String} {ids : IdText}

/-! ## Submissions of a schema -/

def ScalarOf (ids : IdText) : ApplicationCommandOptionType → ApplicationCommandInteractionValue → Prop
  | .string, .string _ => True
  | .integer, .integer _ => True
  | .boolean, .boolean _ => True
  | .number, .number _ => True
  | .number, .integer _ => True
  | .user, .string text => ∃ id, text = ids.display .user id
  | .channel, .string text => ∃ id, text = ids.display .channel id
  | .role, .string text => ∃ id, text = ids.display .role id
  | .attachment, .string text => ∃ id, text = ids.display .attachment id
  | _, _ => False

/-- The submitted scalar is the published choice; numbers are compared as numbers. -/
def chosen : ApplicationCommandChoiceValue → ApplicationCommandInteractionValue → Bool
  | .string value, .string submitted => submitted == value
  | .integer value, .integer submitted => submitted == value
  | .number value, .number submitted => submitted.eq value
  | .number value, .integer submitted => (F64.ofInt submitted).eq value
  | _, _ => false

structure Fills (ids : IdText) (option : ApplicationCommandOption) (submitted : Submitted) : Prop where
  name : submitted.name = option.name
  kind : submitted.kind = option.kind
  value : ∃ value, submitted.value = some value ∧ ScalarOf ids option.kind value ∧
    (option.choices ≠ [] → ∃ choice ∈ option.choices, chosen choice.value value = true)

/-- What is meant by conforming: names and kinds are the published ones, a scalar is of its kind
    and one of the choices, what is required is there, and nothing comes twice. Published
    bounds and lengths are not part of it. -/
structure Conforms (ids : IdText) (options : List ApplicationCommandOption) (submitted : List Submitted) : Prop where
  once : (submitted.map (·.name)).Nodup
  published : ∀ option ∈ submitted, ∃ entry ∈ options, Fills ids entry option
  required : ∀ entry ∈ options, entry.required = some true → ∃ option ∈ submitted, option.name = entry.name

/-- A derived enum is published with its choices: the macro takes no other type for an
    option without `#[choice]`. -/
def OptionParameter.Published (p : OptionParameter display) : Prop :=
  ∀ e, p.type = .choice e → p.choices = .typed

def publishedParameters (ids : IdText) (parameters : List (OptionParameter display)) : List ApplicationCommandOption :=
  parameters.map fun p => createScalarOption (p.descriptor ids)

/-- What was submitted for the NUMBER parameter came as an integer. -/
def Whole (submitted : List Submitted) (p : OptionParameter display) : Prop :=
  p.type.kind = .number ∧ ∃ option ∈ submitted, option.name = p.name ∧ ∃ n, option.value = some (.integer n)

/-- The scalar is one of the type's value. -/
def Denotes (ids : IdText) : (type : ParameterType display) → ApplicationCommandInteractionValue → type.Value → Prop
  | .choice e, scalar, value => ∃ choice, scalar = choiceWire choice ∧ accepts (e.value value) choice = true
  | .string, scalar, value => scalar = .string value
  | .boolean, scalar, value => scalar = .boolean value
  | .integer, scalar, value => scalar = .integer value
  | .number, scalar, value => scalar = .number value
  | .id type, scalar, value => scalar = .string (ids.display type value)

/-- A parameter's value is the one submitted under its name, or there is neither. -/
def Takes (ids : IdText) (submitted : List Submitted) (p : OptionParameter display) (wrapped : p.Value) : Prop :=
  match given p.required wrapped with
  | none => ∀ option ∈ submitted, option.name ≠ p.name
  | some value => ∃ option ∈ submitted, option.name = p.name ∧ ∃ scalar, option.value = some scalar ∧
      Denotes ids p.type scalar value

def Assigned (ids : IdText) (submitted : List Submitted) :
    (parameters : List (OptionParameter display)) → Values parameters → Prop
  | [], _ => True
  | p :: rest, (value, values) => Takes ids submitted p value ∧ Assigned ids submitted rest values

/-! ## One option -/

theorem get_once {submitted : List Submitted} (h : (submitted.map (·.name)).Nodup) {option : Submitted}
    (hm : option ∈ submitted) : CommandOptions.get ⟨submitted⟩ option.name = some option :=
  Lib.find_key h hm

theorem scalarOf_kind {type : ParameterType display} {value : ApplicationCommandInteractionValue}
    (h : ScalarOf ids type.kind value) :
    scalarOf value = type.scalar ∨ type.kind = .number ∧ ∃ n, value = .integer n := by
  cases type with
  | string => cases value <;> first | exact .inl rfl | cases h
  | boolean => cases value <;> first | exact .inl rfl | cases h
  | integer => cases value <;> first | exact .inl rfl | cases h
  | number => cases value <;> first | exact .inl rfl | exact .inr ⟨rfl, _, rfl⟩ | cases h
  | id type => cases type <;> cases value <;> first | exact .inl rfl | cases h
  | choice e =>
    change ScalarOf ids e.optionKind value at h
    unfold ParameterType.scalar ParameterType.kind
    dsimp only
    unfold ChoiceEnum.optionKind at h ⊢
    cases hk : e.kind <;> rw [hk] at h <;> cases value <;>
      first | exact .inl rfl | exact .inr ⟨rfl, _, rfl⟩ | cases h

theorem scalarOf_id {type : IdType} {text : String} (h : ScalarOf ids type.kind (.string text)) :
    ∃ id, text = ids.display type id := by
  cases type <;> exact h

/-- Of scalars of one type, the published choice is compared as the generated code does. -/
theorem chosen_accepts {descriptor : CommandChoiceDescriptor} {choice : CommandChoiceValue}
    (hs : scalarOf (choiceWire descriptor.value) = scalarOf (choiceWire choice)) :
    chosen (createChoice descriptor).value (choiceWire choice) = accepts descriptor.value choice := by
  unfold createChoice
  cases hd : descriptor.value <;> rw [hd] at hs <;> cases choice <;> first | rfl | cases hs

theorem typedChoices_ne_nil (e : ChoiceEnum display) : ParameterType.typedChoices (.choice e) ≠ [] := by
  intro h
  rw [ParameterType.typedChoices, List.map_eq_nil_iff, List.finRange_eq_nil_iff, List.length_eq_zero_iff] at h
  have hderived := e.derived
  rw [h] at hderived
  cases hderived

/-- A scalar among a derived enum's published choices is one variant's. -/
theorem chosen_variant {e : ChoiceEnum display} {choice : CommandChoiceValue}
    (h : ∃ entry ∈ (ParameterType.typedChoices (.choice e)).map createChoice, chosen entry.value (choiceWire choice) = true)
    (hs : scalarOf (choiceWire choice) = (ParameterType.choice e).scalar) : ∃ i, accepts (e.value i) choice = true := by
  obtain ⟨entry, hentry, hchosen⟩ := h
  rw [ParameterType.typedChoices, List.map_map] at hentry
  obtain ⟨i, -, rfl⟩ := List.mem_map.mp hentry
  exact ⟨i, (chosen_accepts ((value_scalar e i).trans hs.symm)).symm.trans hchosen⟩

theorem readValue_denotes (hids : ids.Lawful) {p : OptionParameter display} (hp : p.Published) (name : String)
    {value : ApplicationCommandInteractionValue} (hs : scalarOf value = p.type.scalar)
    (hv : ScalarOf ids p.type.kind value)
    (hc : (p.descriptor ids).choices ≠ [] →
      ∃ entry ∈ (p.descriptor ids).choices.map createChoice, chosen entry.value value = true) :
    ∃ read, readValue ids name p.type value = .ok read ∧ Denotes ids p.type value read := by
  obtain ⟨pname, description, type, required, choices, autocomplete, min, max, minLength, maxLength⟩ := p
  dsimp only at hs hv ⊢
  cases type with
  | string => cases value <;> first | exact ⟨_, rfl, rfl⟩ | cases hs
  | boolean => cases value <;> first | exact ⟨_, rfl, rfl⟩ | cases hs
  | integer => cases value <;> first | exact ⟨_, rfl, rfl⟩ | cases hs
  | number => cases value <;> first | exact ⟨_, rfl, rfl⟩ | cases hs
  | id type =>
    cases value with
    | string text =>
      obtain ⟨id, rfl⟩ := scalarOf_id hv
      exact ⟨id, congrArg (fit name type.expected) (hids type id), rfl⟩
    | integer n => cases hs
    | number x => cases hs
    | boolean b => cases hs
  | choice e =>
    obtain ⟨choice, rfl⟩ : ∃ choice, value = choiceWire choice := by
      cases value with
      | string text => exact ⟨.string text, rfl⟩
      | integer n => exact ⟨.integer n, rfl⟩
      | number x => exact ⟨.number x, rfl⟩
      | boolean => exact absurd hs (choice_not_boolean e)
    obtain rfl : choices = .typed := hp e rfl
    obtain ⟨i, hi⟩ := chosen_variant (hc (typedChoices_ne_nil e)) hs
    show ∃ read, e.select name (fit name e.kind.expected (e.kind.variant (choiceWire choice))) = .ok read ∧ _
    rw [choice_variant e hs]
    show ∃ read, e.select name (.ok choice) = .ok read ∧ _
    cases hf : e.find choice with
    | none =>
      have hnone := ChoiceEnum.find_none.mp hf i
      rw [hi] at hnone
      cases hnone
    | some j =>
      refine ⟨j, ?_, choice, rfl, ChoiceEnum.find_some hf⟩
      simp only [ChoiceEnum.select, hf]

/-! ## One parameter -/

section Parameter

variable {parameters : List (OptionParameter display)} {submitted : List Submitted} {p : OptionParameter display}

/-- What comes under a parameter's name fills its own option. -/
theorem conforms_fills (hnames : (parameters.map (·.name)).Nodup)
    (hc : Conforms ids (publishedParameters ids parameters) submitted) (hp : p ∈ parameters) {option : Submitted}
    (hm : option ∈ submitted) (hn : option.name = p.name) : Fills ids (createScalarOption (p.descriptor ids)) option := by
  obtain ⟨entry, hentry, hfills⟩ := hc.published option hm
  obtain ⟨q, hq, rfl⟩ := List.mem_map.mp hentry
  have hname : q.name = p.name := hfills.name.symm.trans hn
  rw [← List.inj_on_of_nodup_map hnames hq hp hname]
  exact hfills

theorem number_expected {type : ParameterType display} (h : type.kind = .number) : type.expected = "f64" := by
  cases type with
  | number => rfl
  | id type => cases type <;> cases h
  | choice e =>
    change e.optionKind = .number at h
    show e.kind.expected = "f64"
    unfold ChoiceEnum.optionKind at h
    cases hk : e.kind <;> rw [hk] at h <;> first | rfl | cases h
  | _ => cases h

theorem number_scalar {type : ParameterType display} (h : type.kind = .number) : type.scalar = .number := by
  cases type with
  | number => rfl
  | id type => cases type <;> cases h
  | choice e =>
    change e.optionKind = .number at h
    unfold ChoiceEnum.optionKind at h
    unfold ParameterType.scalar
    dsimp only
    cases hk : e.kind <;> rw [hk] at h <;> first | rfl | cases h
  | _ => cases h

/-- What is submitted under the name, when it is not a number that came as an integer. -/
theorem present_reads (hids : ids.Lawful) (hp : p.Published) (honce : (submitted.map (·.name)).Nodup) {option : Submitted}
    (hm : option ∈ submitted) (hf : Fills ids (createScalarOption (p.descriptor ids)) option) (hw : ¬ Whole submitted p) :
    ∃ wrapped, (p.option ids).extract ⟨submitted⟩ p.name = .ok wrapped ∧ Takes ids submitted p wrapped := by
  have hname : option.name = p.name := hf.name
  have hget : CommandOptions.get ⟨submitted⟩ p.name = some option := hname ▸ get_once honce hm
  have hkind : option.kind = p.type.kind := hf.kind.trans (descriptor_kind ids p)
  obtain ⟨value, hvalue, hscalar, hchosen⟩ := hf.value
  rw [show (createScalarOption (p.descriptor ids)).kind = p.type.kind from descriptor_kind ids p] at hscalar
  have hs : scalarOf value = p.type.scalar := by
    rcases scalarOf_kind hscalar with hs | ⟨hk, n, rfl⟩
    · exact hs
    · exact absurd ⟨hk, option, hm, hname, n, hvalue⟩ hw
  obtain ⟨read, hread, hdenotes⟩ := readValue_denotes hids hp p.name hs hscalar fun hne =>
    hchosen fun hnil => hne (List.map_eq_nil_iff.mp hnil)
  have htype : (p.type.option ids).extract ⟨submitted⟩ p.name = .ok read := by
    rw [option_present p.type hget, if_pos hkind, hvalue]
    exact hread
  obtain ⟨name, description, type, required, choices, autocomplete, min, max, minLength, maxLength⟩ := p
  cases required with
  | true => exact ⟨read, htype, option, hm, hname, value, hvalue, hdenotes⟩
  | false => exact ⟨some read, optional_some htype hget, option, hm, hname, value, hvalue, hdenotes⟩

theorem absent_reads (hc : Conforms ids (publishedParameters ids parameters) submitted) (hp : p ∈ parameters)
    (ha : ∀ option ∈ submitted, option.name ≠ p.name) :
    ∃ wrapped, (p.option ids).extract ⟨submitted⟩ p.name = .ok wrapped ∧ Takes ids submitted p wrapped := by
  have hrequired := hc.required _ (List.mem_map_of_mem hp)
  have hget : CommandOptions.get ⟨submitted⟩ p.name = none := get_none ha
  obtain ⟨name, description, type, required, choices, autocomplete, min, max, minLength, maxLength⟩ := p
  cases required with
  | true =>
    obtain ⟨option, hm, hn⟩ := hrequired rfl
    exact absurd hn (ha option hm)
  | false => exact ⟨none, optional_none.mpr hget, ha⟩

theorem parameter_reads (hids : ids.Lawful) (hpublished : ∀ p ∈ parameters, p.Published)
    (hnames : (parameters.map (·.name)).Nodup) (hc : Conforms ids (publishedParameters ids parameters) submitted)
    (hp : p ∈ parameters) (hw : ¬ Whole submitted p) :
    ∃ wrapped, (p.option ids).extract ⟨submitted⟩ p.name = .ok wrapped ∧ Takes ids submitted p wrapped := by
  by_cases h : ∃ option ∈ submitted, option.name = p.name
  · obtain ⟨option, hm, hn⟩ := h
    exact present_reads hids (hpublished p hp) hc.once hm (conforms_fills hnames hc hp hm hn) hw
  · exact absent_reads hc hp fun option hm hn => h ⟨option, hm, hn⟩

/-- A number that came as an integer is refused. -/
theorem whole_fault (hnames : (parameters.map (·.name)).Nodup)
    (hc : Conforms ids (publishedParameters ids parameters) submitted) (hp : p ∈ parameters) (hw : Whole submitted p) :
    Fault ids ⟨submitted⟩ p (.invalidOption p.name "f64") := by
  obtain ⟨hk, option, hm, hn, n, hvalue⟩ := hw
  have hget : CommandOptions.get ⟨submitted⟩ p.name = some option := hn ▸ get_once hc.once hm
  have hkind : option.kind = p.type.kind := (conforms_fills hnames hc hp hm hn).kind.trans (descriptor_kind ids p)
  have hscalar : scalarOf (.integer n) ≠ p.type.scalar := by
    rw [number_scalar hk]
    intro h
    cases h
  rw [← number_expected hk]
  exact ⟨.otherVariant hget hkind hvalue hscalar, .inr ⟨option, hget⟩⟩

/-- Nothing else is at fault with a conforming submission. -/
theorem conforming_fault (hids : ids.Lawful) (hpublished : ∀ p ∈ parameters, p.Published)
    (hnames : (parameters.map (·.name)).Nodup) (hc : Conforms ids (publishedParameters ids parameters) submitted)
    (hp : p ∈ parameters) {error : Error} :
    Fault ids ⟨submitted⟩ p error ↔ Whole submitted p ∧ error = .invalidOption p.name "f64" := by
  constructor
  · intro hf
    have hextract := parameter_error.mpr hf
    by_cases hw : Whole submitted p
    · have hwhole := parameter_error.mpr (whole_fault hnames hc hp hw)
      rw [hextract] at hwhole
      exact ⟨hw, Except.error.inj hwhole⟩
    · obtain ⟨wrapped, hok, -⟩ := parameter_reads hids hpublished hnames hc hp hw
      rw [hextract] at hok
      cases hok
  · rintro ⟨hw, rfl⟩
    exact whole_fault hnames hc hp hw

end Parameter

/-! ## All parameters -/

section All

variable {parameters : List (OptionParameter display)} {submitted : List Submitted}

/-- Without such a number every parameter takes what was submitted for it. -/
theorem extractAll_conforming (hids : ids.Lawful) (hpublished : ∀ p ∈ parameters, p.Published)
    (hnames : (parameters.map (·.name)).Nodup) (hc : Conforms ids (publishedParameters ids parameters) submitted)
    (hw : ∀ p ∈ parameters, ¬ Whole submitted p) :
    ∃ values, extractAll ids ⟨submitted⟩ parameters = .ok values ∧ Assigned ids submitted parameters values := by
  have hreads : ∀ p ∈ parameters, ∃ wrapped, (p.option ids).extract ⟨submitted⟩ p.name = .ok wrapped ∧
      Takes ids submitted p wrapped := fun p hp => parameter_reads hids hpublished hnames hc hp (hw p hp)
  clear hpublished hnames hc hw
  induction parameters with
  | nil => exact ⟨(), rfl, trivial⟩
  | cons p rest ih =>
    obtain ⟨⟨wrapped, hextract, htakes⟩, hrest⟩ := List.forall_mem_cons.mp hreads
    obtain ⟨values, hvalues, hassigned⟩ := ih hrest
    refine ⟨(wrapped, values), ?_, htakes, hassigned⟩
    unfold extractAll
    rw [hextract, hvalues]

/-- With one, the first of them is what the error names. -/
theorem conforming_refused (hids : ids.Lawful) (hpublished : ∀ p ∈ parameters, p.Published)
    (hnames : (parameters.map (·.name)).Nodup) (hc : Conforms ids (publishedParameters ids parameters) submitted)
    {before after : List (OptionParameter display)} {p : OptionParameter display} (hsplit : parameters = before ++ p :: after)
    (hbefore : ∀ q ∈ before, ¬ Whole submitted q) (hw : Whole submitted p) :
    extractAll ids ⟨submitted⟩ parameters = .error (.invalidOption p.name "f64") := by
  have hmem : ∀ q ∈ before, q ∈ parameters := fun q hq => hsplit ▸ List.mem_append_left _ hq
  have hp : p ∈ parameters := hsplit ▸ List.mem_append_right _ (List.mem_cons_self ..)
  refine extractAll_error.mpr ⟨before, p, after, hsplit, fun q hq e hf => ?_, whole_fault hnames hc hp hw⟩
  exact hbefore q hq ((conforming_fault hids hpublished hnames hc (hmem q hq)).mp hf).1

end All

end GloamCommands.Options
