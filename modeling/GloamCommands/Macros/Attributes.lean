/-
  GloamCommands.Macros.Attributes — what the macro reads off a parameter's attributes and
  its type.

  The loop over the attributes keeps one slot a name, so the attributes of one name are
  read apart from the others' (`nameTaken_frame`).
  - `attributes_iff`: what is parsed is what the attributes declare.
  - `optionType_iff`, `validateTypedChoiceType_iff`: the types that are accepted.
-/

import GloamCommands.Macros.Schema
import GloamCommands.Lib.Collect

namespace GloamCommands.Macros

open Lib (map_ok)

/-! ## Reading the attributes -/

theorem named_cons_eq {key : OptionAttribute} {attr : Attribute} {attrs : List Attribute}
    (h : optionAttribute attr = some key) : named key (attr :: attrs) = attr.style :: named key attrs := by
  simp [named, h]

theorem named_cons_ne {key : OptionAttribute} {attr : Attribute} {attrs : List Attribute}
    (h : optionAttribute attr ≠ some key) : named key (attr :: attrs) = named key attrs := by
  simp [named, h]

section Slots

variable {α : Type} {parse : Meta → String → Expansion α} {name : String}

/-- Every one of the attributes is read into a slot that holds at most one value. -/
def SlotTaken (parse : Meta → String → Expansion α) (name : String) (styles : List Meta) (slot final : Option α) : Prop :=
  ∃ values, List.Forall₂ (fun style value => parse style name = .ok value) styles values ∧
    slot.toList ++ values = final.toList

theorem slotTaken_nil {slot final : Option α} : SlotTaken parse name [] slot final ↔ slot = final := by
  constructor
  · rintro ⟨values, hv, heq⟩
    cases hv
    cases slot <;> cases final <;> simp_all
  · rintro rfl
    exact ⟨[], .nil, List.append_nil _⟩

theorem takeSlot_iff {slot next : Option α} {style : Meta} :
    takeSlot parse name slot style = .ok next ↔ slot = none ∧ ∃ value, parse style name = .ok value ∧ next = some value := by
  unfold takeSlot setOnce
  cases parse style name with
  | error error => simp
  | ok value => cases slot <;> simp [eq_comm]

theorem slotTaken_cons {style : Meta} {styles : List Meta} {slot final : Option α} :
    SlotTaken parse name (style :: styles) slot final ↔
      ∃ next, takeSlot parse name slot style = .ok next ∧ SlotTaken parse name styles next final := by
  constructor
  · rintro ⟨values, hv, heq⟩
    cases hv with
    | @cons _ value _ values hvalue hvalues =>
      -- a slot that is taken has no room for a second value
      cases slot with
      | some old => cases final <;> simp at heq
      | none => exact ⟨some value, takeSlot_iff.mpr ⟨rfl, value, hvalue, rfl⟩, values, hvalues, heq⟩
  · rintro ⟨next, htake, values, hvalues, heq⟩
    obtain ⟨rfl, value, hvalue, rfl⟩ := takeSlot_iff.mp htake
    exact ⟨value :: values, .cons hvalue hvalues, heq⟩

theorem slotTaken_declared {Reads : Expr → α → Prop} {key : OptionAttribute} {attrs : List Attribute} {final : Option α}
    (hparse : ∀ style value, parse style name = .ok value ↔ ∃ expression, style = .nameValue expression ∧ Reads expression value) :
    SlotTaken parse name (named key attrs) none final ↔ Declared Reads key attrs final := by
  unfold SlotTaken Declared
  cases final with
  | none =>
    constructor
    · rintro ⟨values, hv, heq⟩
      obtain rfl : values = [] := by simpa using heq
      cases h : named key attrs with
      | nil => rfl
      | cons => rw [h] at hv; cases hv
    · intro h
      exact ⟨[], by rw [h]; exact .nil, rfl⟩
  | some value =>
    constructor
    · rintro ⟨values, hv, heq⟩
      obtain rfl : values = [value] := by simpa using heq
      obtain ⟨style, styles, hstyle, hrest, hn⟩ := List.forall₂_cons_right_iff.mp hv
      cases hrest
      obtain ⟨expression, rfl, hreads⟩ := (hparse style value).mp hstyle
      exact ⟨expression, hn, hreads⟩
    · rintro ⟨expression, hn, hreads⟩
      exact ⟨[value], by rw [hn]; exact .cons ((hparse _ _).mpr ⟨expression, rfl, hreads⟩) .nil, rfl⟩

end Slots

theorem parseExpressionAttribute_iff (name : String) (style : Meta) (expression : Expr) :
    parseExpressionAttribute style name = .ok expression ↔ ∃ e, style = .nameValue e ∧ e = expression := by
  cases style <;> simp [parseExpressionAttribute]

theorem parseStringAttribute_iff (name : String) (style : Meta) (value : String) :
    parseStringAttribute style name = .ok value ↔ ∃ e, style = .nameValue e ∧ StringLiteral e value := by
  unfold parseStringAttribute StringLiteral
  cases style with
  | nameValue expression =>
    simp only [parseExpressionAttribute, Meta.nameValue.injEq, exists_eq_left']
    split <;> simp_all
  | path => simp [parseExpressionAttribute]
  | list => simp [parseExpressionAttribute]

theorem parsePathAttribute_iff (name : String) (style : Meta) (path : Path) :
    parsePathAttribute style name = .ok path ↔ ∃ e, style = .nameValue e ∧ HandlerPath e path := by
  unfold parsePathAttribute HandlerPath
  cases style with
  | nameValue expression =>
    simp only [parseExpressionAttribute, Meta.nameValue.injEq, exists_eq_left']
    cases expression with
    | path qself p =>
      by_cases hbad : (qself || p.segments.isEmpty || p.segments.any fun segment => !segment.arguments.isNone) = true
      · dsimp only
        rw [if_pos hbad]
        refine ⟨fun h => (by cases h), ?_⟩
        rintro ⟨heq, hne, hplain⟩
        cases heq
        simp only [Bool.false_or, Bool.or_eq_true, List.isEmpty_iff, List.any_eq_true, Bool.not_eq_true'] at hbad
        rcases hbad with hbad | ⟨segment, hm, hbad⟩
        · exact absurd hbad hne
        · rw [hplain segment hm] at hbad
          cases hbad
      · dsimp only
        rw [if_neg hbad]
        simp only [Bool.or_eq_true, List.isEmpty_iff, List.any_eq_true, Bool.not_eq_true', not_or, not_exists, not_and,
          Bool.not_eq_true, Bool.not_eq_false] at hbad
        obtain ⟨⟨rfl, hne⟩, hplain⟩ := hbad
        constructor
        · intro h
          cases h
          exact ⟨rfl, hne, hplain⟩
        · rintro ⟨heq, -, -⟩
          cases heq
          rfl
    | _ => simp
  | path => simp [parseExpressionAttribute]
  | list => simp [parseExpressionAttribute]

/-! ## Reading the choices -/

theorem slot_full {α : Type} {slot final : Option α} {value : α} {rest : List α}
    (h : slot.toList ++ value :: rest = final.toList) : slot = none := by
  cases slot with
  | none => rfl
  | some old => cases final <;> simp at h

/-- The arguments read so far, and those that are left. -/
theorem choiceArgs_parse_iff {entries : List (Ident × Option Expr)} : ∀ {args final : ChoiceArgs},
    ChoiceArgs.parse args entries = .ok final ↔
      (∀ entry ∈ entries, (nameEntry entry).isSome = true ∨ (valueEntry entry).isSome = true) ∧
        args.name.toList ++ entries.filterMap nameEntry = final.name.toList ∧
        args.value.toList ++ entries.filterMap valueEntry = final.value.toList := by
  induction entries with
  | nil =>
    rintro ⟨name, value⟩ ⟨name', value'⟩
    simp only [ChoiceArgs.parse, Except.ok.injEq, ChoiceArgs.mk.injEq, List.filterMap_nil, List.append_nil]
    cases name <;> cases name' <;> cases value <;> cases value' <;> simp
  | cons entry entries ih =>
    intro args final
    rw [List.forall_mem_cons]
    -- an entry that says neither is refused
    have hneither : nameEntry entry = none → valueEntry entry = none → ∀ {P : Prop},
        ((nameEntry entry).isSome = true ∨ (valueEntry entry).isSome = true) ∧ P → False := by
      rintro hn hv P ⟨h, -⟩
      rw [hn, hv] at h
      rcases h with h | h <;> cases h
    obtain ⟨key, _ | expression⟩ := entry
    · refine ⟨fun h => (by cases h), fun h => (hneither rfl rfl ⟨h.1.1, h⟩).elim⟩
    by_cases hname : key.toString = "name"
    · have hvalue : valueEntry (key, some expression) = none := by simp [valueEntry, hname]
      by_cases hlit : ∃ literal, expression = .lit (.str literal)
      · obtain ⟨literal, rfl⟩ := hlit
        have hentry : nameEntry (key, some (.lit (.str literal))) = some literal := by simp [nameEntry, hname]
        rw [List.filterMap_cons, List.filterMap_cons, hentry, hvalue]
        cases hslot : args.name with
        | some old =>
          refine ⟨fun h => ?_, fun h => ?_⟩
          · simp [ChoiceArgs.parse, hname, hslot] at h
          · exact absurd (slot_full h.2.1) (by simp)
        | none =>
          have hparse : ChoiceArgs.parse args ((key, some (.lit (.str literal))) :: entries) =
              ChoiceArgs.parse { args with name := some literal } entries := by
            simp [ChoiceArgs.parse, hname, hslot]
          rw [hparse, ih]
          simp
      · have hentry : nameEntry (key, some expression) = none := by
          unfold nameEntry
          split
          · rename_i heq
            cases heq
            exact absurd ⟨_, rfl⟩ hlit
          · rfl
        refine ⟨fun h => ?_, fun h => (hneither hentry hvalue ⟨h.1.1, h⟩).elim⟩
        unfold ChoiceArgs.parse at h
        rw [if_pos (by rw [hname]; rfl)] at h
        split at h
        · exact absurd ⟨_, rfl⟩ hlit
        · cases h
    · have hentry : nameEntry (key, some expression) = none := by
        unfold nameEntry
        split
        · rename_i heq
          cases heq
          rw [if_neg (by simpa using hname)]
        · rfl
      by_cases hkey : key.toString = "value"
      · have hvalue : valueEntry (key, some expression) = some expression := by simp [valueEntry, hkey]
        rw [List.filterMap_cons, List.filterMap_cons, hentry, hvalue]
        cases hslot : args.value with
        | some old =>
          refine ⟨fun h => ?_, fun h => ?_⟩
          · simp [ChoiceArgs.parse, hkey, hslot] at h
          · exact absurd (slot_full h.2.2) (by simp)
        | none =>
          have hparse : ChoiceArgs.parse args ((key, some expression) :: entries) =
              ChoiceArgs.parse { args with value := some expression } entries := by
            simp [ChoiceArgs.parse, hkey, hslot]
          rw [hparse, ih]
          simp
      · have hvalue : valueEntry (key, some expression) = none := by simp [valueEntry, hkey]
        refine ⟨fun h => ?_, fun h => (hneither hentry hvalue ⟨h.1.1, h⟩).elim⟩
        simp [ChoiceArgs.parse, hname, hkey] at h

theorem parseChoiceArgs_iff (arguments : Arguments) (args : ChoiceArgs) :
    parseChoiceArgs arguments = .ok args ↔ ChoiceEntries arguments args := by
  unfold parseChoiceArgs ChoiceEntries
  cases arguments with
  | none => simp
  | some entries => simp [choiceArgs_parse_iff]

/-- What the choice attributes that are left add to a marker and to inline choices. -/
structure ChoicesTaken (styles : List Meta) (bare bare' : Bool) (inline inline' : List ChoiceArgs) : Prop where
  form : ∀ style ∈ styles, ∀ value, style ≠ .nameValue value
  bare : bare.toNat + styles.countP Meta.isBare = bare'.toNat
  inline : ∃ more, List.Forall₂ ChoiceEntries (styles.filterMap Meta.arguments) more ∧ inline' = inline ++ more

def NameTaken (key : OptionAttribute) (styles : List Meta) (parsed final : OptionAttributes) : Prop :=
  match key with
  | .description => SlotTaken parseStringAttribute "description" styles parsed.description final.description
  | .min => SlotTaken parseExpressionAttribute "min" styles parsed.min final.min
  | .max => SlotTaken parseExpressionAttribute "max" styles parsed.max final.max
  | .minLength => SlotTaken parseExpressionAttribute "min_length" styles parsed.minLength final.minLength
  | .maxLength => SlotTaken parseExpressionAttribute "max_length" styles parsed.maxLength final.maxLength
  | .autocomplete => SlotTaken parsePathAttribute "autocomplete" styles parsed.autocomplete final.autocomplete
  | .choice => ChoicesTaken styles parsed.typedChoice final.typedChoice parsed.inlineChoices final.inlineChoices

theorem choicesTaken_cons {style : Meta} {styles : List Meta} {parsed final : OptionAttributes} :
    NameTaken .choice (style :: styles) parsed final ↔
      ∃ next, takeChoice parsed style = .ok next ∧ NameTaken .choice styles next final := by
  cases style with
  | path =>
    cases hbare : parsed.typedChoice with
    | true =>
      constructor
      · rintro ⟨-, hcount, -⟩
        rw [hbare, List.countP_cons_of_pos rfl] at hcount
        cases hf : final.typedChoice <;> simp [hf] at hcount
      · rintro ⟨next, h, -⟩
        simp [takeChoice, hbare] at h
    | false =>
      have htake : takeChoice parsed .path = .ok { parsed with typedChoice := true } := by simp [takeChoice, hbare]
      constructor
      · rintro ⟨hform, hcount, hinline⟩
        refine ⟨_, htake, fun style hs => hform style (List.mem_cons_of_mem _ hs), ?_, hinline⟩
        rw [hbare, List.countP_cons_of_pos rfl] at hcount
        simp only [Bool.toNat_false, Bool.toNat_true] at hcount ⊢
        omega
      · rintro ⟨next, h, hform, hcount, hinline⟩
        rw [htake] at h
        cases h
        refine ⟨List.forall_mem_cons.mpr ⟨fun _ h => (by cases h), hform⟩, ?_, hinline⟩
        rw [hbare, List.countP_cons_of_pos rfl]
        simp only [Bool.toNat_false, Bool.toNat_true] at hcount ⊢
        omega
  | list arguments =>
    have htake : ∀ next, takeChoice parsed (.list arguments) = .ok next ↔
        ∃ args, ChoiceEntries arguments args ∧ next = { parsed with inlineChoices := parsed.inlineChoices ++ [args] } := by
      intro next
      simp only [takeChoice, ← parseChoiceArgs_iff]
      cases parseChoiceArgs arguments <;> simp [eq_comm]
    constructor
    · rintro ⟨hform, hcount, more, hmore, hinline⟩
      rw [List.countP_cons_of_neg (by simp [Meta.isBare])] at hcount
      cases hmore with
      | @cons _ args _ more hargs hmore =>
        refine ⟨_, (htake _).mpr ⟨args, hargs, rfl⟩, fun style hs => hform style (List.mem_cons_of_mem _ hs), hcount, more,
          hmore, ?_⟩
        rw [hinline]
        simp
    · rintro ⟨next, h, hform, hcount, more, hmore, hinline⟩
      obtain ⟨args, hargs, rfl⟩ := (htake next).mp h
      refine ⟨List.forall_mem_cons.mpr ⟨fun _ h => (by cases h), hform⟩, ?_, args :: more, .cons hargs hmore, ?_⟩
      · rw [List.countP_cons_of_neg (by simp [Meta.isBare])]
        exact hcount
      · rw [hinline]
        simp
  | nameValue value =>
    constructor
    · rintro ⟨hform, -, -⟩
      exact absurd rfl (hform _ (List.mem_cons_self ..) value)
    · rintro ⟨next, h, -⟩
      cases h

theorem nameTaken_cons {key : OptionAttribute} {style : Meta} {styles : List Meta} {parsed final : OptionAttributes} :
    NameTaken key (style :: styles) parsed final ↔
      ∃ next, takeAttribute parsed style key = .ok next ∧ NameTaken key styles next final := by
  by_cases hchoice : key = .choice
  · subst hchoice
    exact choicesTaken_cons
  -- the other six are slots
  cases key with
  | choice => exact absurd rfl hchoice
  | _ =>
    refine slotTaken_cons.trans ⟨?_, ?_⟩
    · rintro ⟨slot, hslot, hrest⟩
      exact ⟨_, map_ok.mpr ⟨slot, hslot, rfl⟩, hrest⟩
    · rintro ⟨next, htake, hrest⟩
      obtain ⟨slot, hslot, rfl⟩ := map_ok.mp htake
      exact ⟨slot, hslot, hrest⟩

/-- An attribute changes what is parsed under its own name alone. -/
theorem nameTaken_frame {key other : OptionAttribute} {style : Meta} {styles : List Meta}
    {parsed next final : OptionAttributes} (h : takeAttribute parsed style key = .ok next) (hne : other ≠ key) :
    NameTaken other styles parsed final ↔ NameTaken other styles next final := by
  cases key with
  | choice =>
    have hnext : ∃ bare inline, next = { parsed with typedChoice := bare, inlineChoices := inline } := by
      have h : takeChoice parsed style = .ok next := h
      unfold takeChoice at h
      split at h
      · split at h
        · cases h
        · cases h
          exact ⟨true, parsed.inlineChoices, rfl⟩
      · split at h
        · cases h
        · cases h
          exact ⟨parsed.typedChoice, _, rfl⟩
      · cases h
    obtain ⟨bare, inline, rfl⟩ := hnext
    cases other with
    | choice => exact absurd rfl hne
    | _ => exact Iff.rfl
  | _ =>
    obtain ⟨slot, -, rfl⟩ := map_ok.mp h
    cases other <;> first | exact Iff.rfl | exact absurd rfl hne

theorem nameTaken_nil {parsed final : OptionAttributes} : (∀ key, NameTaken key [] parsed final) ↔ parsed = final := by
  constructor
  · intro h
    have hd := slotTaken_nil.mp (h .description)
    have hmin := slotTaken_nil.mp (h .min)
    have hmax := slotTaken_nil.mp (h .max)
    have hminLength := slotTaken_nil.mp (h .minLength)
    have hmaxLength := slotTaken_nil.mp (h .maxLength)
    have ha := slotTaken_nil.mp (h .autocomplete)
    obtain ⟨-, hbare, more, hmore, hinline⟩ := h .choice
    cases hmore
    have hbare : parsed.typedChoice = final.typedChoice := by
      cases hp : parsed.typedChoice <;> cases hf : final.typedChoice <;> simp [hp, hf] at hbare ⊢
    rw [List.append_nil] at hinline
    cases parsed
    cases final
    simp_all
  · rintro rfl key
    cases key with
    | choice => exact ⟨fun _ h => (by cases h), rfl, [], .nil, (List.append_nil _).symm⟩
    | _ => exact slotTaken_nil.mpr rfl

/-- The loop reads every name's attributes, and keeps those that have none. -/
theorem takeOptionAttributes_iff {attrs : List Attribute} : ∀ {parsed final : OptionAttributes} {retained kept : List Attribute},
    takeOptionAttributes parsed retained attrs = .ok (final, kept) ↔
      (∀ key, NameTaken key (named key attrs) parsed final) ∧
        kept = retained ++ attrs.filter fun attr => (optionAttribute attr).isNone := by
  induction attrs with
  | nil =>
    intro parsed final retained kept
    simp only [takeOptionAttributes, Except.ok.injEq, Prod.mk.injEq, List.filter_nil, List.append_nil]
    exact and_congr nameTaken_nil.symm eq_comm
  | cons attr attrs ih =>
    intro parsed final retained kept
    cases hkey : optionAttribute attr with
    | none =>
      have hnamed : ∀ key, named key (attr :: attrs) = named key attrs := fun key => named_cons_ne (by rw [hkey]; simp)
      simp only [takeOptionAttributes, hkey, ih, hnamed]
      simp [hkey]
    | some key =>
      have hother : ∀ other, other ≠ key → named other (attr :: attrs) = named other attrs :=
        fun other hne => named_cons_ne (by rw [hkey]; simpa using hne.symm)
      rw [List.filter_cons_of_neg (by simp [hkey])]
      constructor
      · intro h
        simp only [takeOptionAttributes, hkey] at h
        split at h
        · cases h
        · rename_i next hnext
          obtain ⟨htaken, hkept⟩ := ih.mp h
          refine ⟨fun other => ?_, hkept⟩
          by_cases ho : other = key
          · subst ho
            rw [named_cons_eq hkey]
            exact nameTaken_cons.mpr ⟨next, hnext, htaken other⟩
          · rw [hother other ho]
            exact (nameTaken_frame hnext ho).mpr (htaken other)
      · rintro ⟨htaken, hkept⟩
        have hown := htaken key
        rw [named_cons_eq hkey] at hown
        obtain ⟨next, hnext, hrest⟩ := nameTaken_cons.mp hown
        simp only [takeOptionAttributes, hkey, hnext]
        refine ih.mpr ⟨fun other => ?_, hkept⟩
        by_cases ho : other = key
        · subst ho
          exact hrest
        · have := htaken other
          rw [hother other ho] at this
          exact (nameTaken_frame hnext ho).mp this

structure DeclaresAttributes (attrs : List Attribute) (attributes : OptionAttributes) : Prop where
  description : Declared StringLiteral .description attrs attributes.description
  min : Declared Eq .min attrs attributes.min
  max : Declared Eq .max attrs attributes.max
  minLength : Declared Eq .minLength attrs attributes.minLength
  maxLength : Declared Eq .maxLength attrs attributes.maxLength
  autocomplete : Declared HandlerPath .autocomplete attrs attributes.autocomplete
  choices : DeclaresChoices attrs attributes.typedChoice attributes.inlineChoices

theorem attributes_iff {attrs kept : List Attribute} {attributes : OptionAttributes} :
    takeOptionAttributes {} [] attrs = .ok (attributes, kept) ↔
      DeclaresAttributes attrs attributes ∧ kept = attrs.filter fun attr => (optionAttribute attr).isNone := by
  rw [takeOptionAttributes_iff, List.nil_append]
  refine and_congr_left fun _ => ?_
  have hdescription := @slotTaken_declared _ _ "description" _ .description attrs attributes.description
    (parseStringAttribute_iff "description")
  have hmin := @slotTaken_declared _ _ "min" _ .min attrs attributes.min (parseExpressionAttribute_iff "min")
  have hmax := @slotTaken_declared _ _ "max" _ .max attrs attributes.max (parseExpressionAttribute_iff "max")
  have hminLength := @slotTaken_declared _ _ "min_length" _ .minLength attrs attributes.minLength
    (parseExpressionAttribute_iff "min_length")
  have hmaxLength := @slotTaken_declared _ _ "max_length" _ .maxLength attrs attributes.maxLength
    (parseExpressionAttribute_iff "max_length")
  have hautocomplete := @slotTaken_declared _ _ "autocomplete" _ .autocomplete attrs attributes.autocomplete
    (parsePathAttribute_iff "autocomplete")
  constructor
  · intro h
    obtain ⟨hform, hbare, more, hmore, hinline⟩ := h .choice
    refine ⟨hdescription.mp (h .description), hmin.mp (h .min), hmax.mp (h .max), hminLength.mp (h .minLength),
      hmaxLength.mp (h .maxLength), hautocomplete.mp (h .autocomplete), hform, ?_, ?_⟩
    · simpa using hbare
    · have hinline : attributes.inlineChoices = more := hinline
      rw [hinline]
      exact hmore
  · rintro ⟨hd, hm, hx, hml, hxl, ha, hform, hbare, hinline⟩ key
    cases key with
    | description => exact hdescription.mpr hd
    | min => exact hmin.mpr hm
    | max => exact hmax.mpr hx
    | minLength => exact hminLength.mpr hml
    | maxLength => exact hmaxLength.mpr hxl
    | autocomplete => exact hautocomplete.mpr ha
    | choice => exact ⟨hform, by simpa using hbare, _, hinline, rfl⟩

/-! ## Reading the types -/

theorem optionInnerType_some {ty inner : RustType} : optionInnerType ty = .ok (some inner) ↔ OptionOf ty inner := by
  constructor
  · intro h
    unfold optionInnerType at h
    split at h
    · split at h
      · cases h
      · rename_i segment hlast
        obtain ⟨ident, arguments⟩ := segment
        split at h
        · cases h
        · rename_i hident
          split at h
          · rename_i harguments
            cases h
            obtain rfl : arguments = _ := harguments
            exact .intro hlast (by simpa [PathSegment.ident] using hident)
          · cases h
          · cases h
    · cases h
  · rintro ⟨hlast, hident⟩
    simp [optionInnerType, hlast, PathSegment.ident, PathSegment.arguments, hident]

/-- A plain name is inside no `Option`; if it is `Option`, it is refused. -/
theorem optionInnerType_plain {ty : RustType} {ident : Ident} (h : PlainPath ty ident) :
    optionInnerType ty = .ok none ↔ ident.toString ≠ "Option" := by
  cases h with
  | intro hlast =>
    by_cases hident : ident.toString = "Option"
    · simp [optionInnerType, hlast, PathSegment.ident, PathSegment.arguments, hident]
    · simp [optionInnerType, hlast, PathSegment.ident, hident]

theorem known_not_option {ident : Ident} {kind : OptionKind} (h : knownOptionKind ident = some kind) :
    ident.toString ≠ "Option" := by
  intro heq
  unfold knownOptionKind at h
  rw [heq] at h
  cases h

theorem supportedOptionKind_iff {ty : RustType} {kind : OptionKind} :
    supportedOptionKind ty = .ok kind ↔ IsScalar kind ty := by
  constructor
  · intro h
    unfold supportedOptionKind at h
    split at h
    · split at h
      · cases h
      · rename_i segment hlast
        obtain ⟨ident, arguments⟩ := segment
        split at h
        · cases h
        · rename_i hplain
          split at h
          · cases h
          · rename_i known hknown
            cases h
            cases arguments with
            | none => exact ⟨ident, .intro hlast, hknown⟩
            | _ => simp [PathSegment.arguments, PathArguments.isNone] at hplain
    · cases h
  · rintro ⟨ident, ⟨hlast⟩, hknown⟩
    simp [supportedOptionKind, hlast, PathSegment.ident, PathSegment.arguments, PathArguments.isNone, hknown]

theorem unwrapOption_iff {ty inner : RustType} {required : Bool} :
    unwrapOption ty = .ok (inner, required) ↔
      optionInnerType inner = .ok none ∧
        ((required = true ∧ inner = ty) ∨ (required = false ∧ OptionOf ty inner)) := by
  unfold unwrapOption
  rcases ho : optionInnerType ty with error | _ | outer
  · simp only [reduceCtorEq, false_iff, not_and, not_or]
    intro hinner
    refine ⟨fun _ heq => ?_, fun _ hof => ?_⟩
    · rw [heq, ho] at hinner
      cases hinner
    · rw [optionInnerType_some.mpr hof] at ho
      cases ho
  · simp only [Except.ok.injEq, Prod.mk.injEq]
    constructor
    · rintro ⟨rfl, rfl⟩
      exact ⟨ho, .inl ⟨rfl, rfl⟩⟩
    · rintro ⟨-, ⟨rfl, rfl⟩ | ⟨-, hof⟩⟩
      · exact ⟨rfl, rfl⟩
      · rw [optionInnerType_some.mpr hof] at ho
        cases ho
  · dsimp only
    have hof := optionInnerType_some.mp ho
    constructor
    · intro h
      split at h
      · cases h
      · cases h
      · rename_i hnone
        cases h
        exact ⟨hnone, .inr ⟨rfl, hof⟩⟩
    · rintro ⟨hinner, ⟨-, rfl⟩ | ⟨rfl, hof'⟩⟩
      · rw [ho] at hinner
        cases hinner
      · have heq := optionInnerType_some.mpr hof'
        rw [ho] at heq
        cases heq
        rw [hinner]

theorem optionType_iff {ty : RustType} {kind : OptionKind} {required : Bool} :
    optionType ty = .ok (kind, required) ↔ OptionalOf (IsScalar kind) ty required := by
  have hplain : ∀ {inner}, IsScalar kind inner → optionInnerType inner = .ok none := by
    rintro inner ⟨ident, hpath, hknown⟩
    exact (optionInnerType_plain hpath).mpr (known_not_option hknown)
  unfold optionType OptionalOf
  constructor
  · intro h
    split at h
    · cases h
    · rename_i inner required' hu
      split at h
      · cases h
      · rename_i kind' hk
        cases h
        obtain ⟨-, ⟨hr, rfl⟩ | ⟨hr, hof⟩⟩ := unwrapOption_iff.mp hu
        · exact .inl ⟨hr, supportedOptionKind_iff.mp hk⟩
        · exact .inr ⟨hr, inner, hof, supportedOptionKind_iff.mp hk⟩
  · rintro (⟨rfl, hscalar⟩ | ⟨rfl, inner, hof, hscalar⟩)
    · rw [unwrapOption_iff.mpr ⟨hplain hscalar, .inl ⟨rfl, rfl⟩⟩]
      simp [supportedOptionKind_iff.mpr hscalar]
    · rw [unwrapOption_iff.mpr ⟨hplain hscalar, .inr ⟨rfl, hof⟩⟩]
      simp [supportedOptionKind_iff.mpr hscalar]

theorem validateTypedChoiceType_iff {ty : RustType} {required : Bool} :
    validateTypedChoiceType ty = .ok required ↔ OptionalOf IsChoiceType ty required := by
  unfold validateTypedChoiceType OptionalOf
  constructor
  · intro h
    dsimp only at h
    split at h
    · cases h
    · rename_i segments required' hu
      split at h
      · cases h
      · rename_i segment hlast
        obtain ⟨ident, arguments⟩ := segment
        split at h
        · cases h
        · rename_i hbad
          cases h
          simp only [PathSegment.arguments, PathSegment.ident, Bool.or_eq_true, Bool.not_eq_true', not_or,
            Bool.not_eq_false, Bool.not_eq_true, Option.isSome_eq_false_iff, Option.isNone_iff_eq_none] at hbad
          obtain ⟨hplain, hunknown⟩ := hbad
          have hpath : PlainPath (.path segments) ident := by
            cases arguments with
            | none => exact .intro hlast
            | _ => simp [PathArguments.isNone] at hplain
          obtain ⟨hinner, hshape⟩ := unwrapOption_iff.mp hu
          have hchoice : IsChoiceType (.path segments) := ⟨ident, hpath, hunknown, (optionInnerType_plain hpath).mp hinner⟩
          rcases hshape with ⟨hr, rfl⟩ | ⟨hr, hof⟩
          · exact .inl ⟨hr, hchoice⟩
          · exact .inr ⟨hr, _, hof, hchoice⟩
    · cases h
  · have haccept : ∀ {inner}, IsChoiceType inner →
        ((required = true ∧ inner = ty) ∨ (required = false ∧ OptionOf ty inner)) →
        validateTypedChoiceType ty = .ok required := by
      rintro inner ⟨ident, hpath, hunknown, hident⟩ hshape
      have hu := unwrapOption_iff.mpr ⟨(optionInnerType_plain hpath).mpr hident, hshape⟩
      cases hpath with
      | intro hlast =>
        simp [validateTypedChoiceType, hu, hlast, PathSegment.ident, PathSegment.arguments, PathArguments.isNone, hunknown]
    rintro (⟨hr, hchoice⟩ | ⟨hr, inner, hof, hchoice⟩)
    · exact haccept hchoice (.inl ⟨hr, rfl⟩)
    · exact haccept hchoice (.inr ⟨hr, hof⟩)

end GloamCommands.Macros
