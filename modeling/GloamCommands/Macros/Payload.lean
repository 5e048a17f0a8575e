/-
  GloamCommands.Macros.Payload — what the macros accept, Discord can be sent.

  Discord has rules for a command it is sent: names and descriptions, how many options and
  choices, which bounds an option may have, and three levels. `NativeCommand` says them of
  the payload. The macros check syntax and the registry checks the tree; between them they
  see to all of these but one: nothing counts the children of a group.
  - `parameter_native`: a declared parameter is published as a native option.
  - `published_native`: a registered nest is published as a native command exactly when
    none of its groups has more than 25 children.
-/

import GloamCommands.Core.Agreement
import GloamCommands.Macros.Acceptance
import GloamCommands.Macros.Choices

namespace GloamCommands.Macros

open Lib (F64 map_ok forall₂_mem_right collect_iff)
open Options (checkVariant checkVariants_ok deriveChoice_ok)

variable {D : Type}

/-! ## Discord's rules -/

def NativeText (text : String) : Prop := 1 ≤ text.length ∧ text.length ≤ 100

def NativeValue : ApplicationCommandOptionType → ApplicationCommandChoiceValue → Prop
  | .string, .string value => value.length ≤ maxChoiceStringLength
  | .integer, .integer value => IntegerInRange value
  | .number, .number value => NumberInRange value
  | _, _ => False

def sameValue : ApplicationCommandChoiceValue → ApplicationCommandChoiceValue → Bool
  | .string left, .string right => left == right
  | .integer left, .integer right => left == right
  | .number left, .number right => left.eq right
  | _, _ => false

structure NativeChoices (kind : ApplicationCommandOptionType) (choices : List ApplicationCommandOptionChoice) : Prop where
  count : choices.length ≤ maxChoices
  each : ∀ choice ∈ choices, NativeText choice.name ∧ NativeValue kind choice.value
  names : (choices.map (·.name)).Nodup
  values : choices.Pairwise fun a b => sameValue a.value b.value = false

/-- Bounds are of the option's kind, and in order. -/
def NativeBounds (option : ApplicationCommandOption) : Prop :=
  match option.kind with
  | .integer => ∃ low high : Option Int, option.minValue = low.map .integer ∧ option.maxValue = high.map .integer ∧
      (∀ l ∈ low, IntegerInRange l) ∧ (∀ h ∈ high, IntegerInRange h) ∧ ∀ l ∈ low, ∀ h ∈ high, l ≤ h
  | .number => ∃ low high : Option F64, option.minValue = low.map .number ∧ option.maxValue = high.map .number ∧
      (∀ l ∈ low, NumberInRange l) ∧ (∀ h ∈ high, NumberInRange h) ∧ ∀ l ∈ low, ∀ h ∈ high, l.le h = true
  | _ => option.minValue = none ∧ option.maxValue = none

def NativeLengths (option : ApplicationCommandOption) : Prop :=
  match option.kind with
  | .string => (∀ l ∈ option.minLength, l ≤ maxStringLength) ∧ (∀ h ∈ option.maxLength, 1 ≤ h ∧ h ≤ maxStringLength) ∧
      ∀ l ∈ option.minLength, ∀ h ∈ option.maxLength, l ≤ h
  | _ => option.minLength = none ∧ option.maxLength = none

/-- An option a user fills in. -/
structure NativeScalar (unicode : Unicode) (option : ApplicationCommandOption) : Prop where
  name : ValidName unicode option.name
  description : NativeText option.description
  kind : ∃ kind : OptionKind, option.kind = kind.discord
  required : option.required.isSome = true
  choices : NativeChoices option.kind option.choices
  completes : option.autocomplete = some true → option.kind.completes = true ∧ option.choices = []
  bounds : NativeBounds option
  lengths : NativeLengths option
  options : option.options = []

/-- The options of a command, or of a subcommand. -/
structure NativeScalars (unicode : Unicode) (options : List ApplicationCommandOption) : Prop where
  count : options.length ≤ maxCommandOptions
  each : ∀ option ∈ options, NativeScalar unicode option
  names : (options.map (·.name)).Nodup
  requiredFirst : options.Pairwise fun earlier later => later.required = some true → earlier.required = some true

/-- The subcommands of a level. -/
structure NativeLevel (Child : ApplicationCommandOption → Prop) (options : List ApplicationCommandOption) : Prop where
  nonempty : options ≠ []
  count : options.length ≤ maxCommandOptions
  names : (options.map (·.name)).Nodup
  each : ∀ option ∈ options, Child option

structure NativeBranch (unicode : Unicode) (kind : ApplicationCommandOptionType) (option : ApplicationCommandOption) :
    Prop where
  kind : option.kind = kind
  name : ValidName unicode option.name
  description : NativeText option.description
  choices : option.choices = []
  bounds : option.minValue = none ∧ option.maxValue = none ∧ option.minLength = none ∧ option.maxLength = none
  unset : option.required = none ∧ option.autocomplete = none

def NativeSub (unicode : Unicode) (option : ApplicationCommandOption) : Prop :=
  NativeBranch unicode .subCommand option ∧ NativeScalars unicode option.options

def NativeChild (unicode : Unicode) (option : ApplicationCommandOption) : Prop :=
  NativeSub unicode option ∨
    NativeBranch unicode .subCommandGroup option ∧ NativeLevel (NativeSub unicode) option.options

/-- A chat-input command: options, or up to two levels of subcommands. How much text all of
    its names, descriptions and choices may come to is left out. -/
structure NativeCommand (unicode : Unicode) (create : CreateApplicationCommand) : Prop where
  name : ValidName unicode create.name
  description : NativeText create.description
  options : NativeScalars unicode create.options ∨ NativeLevel (NativeChild unicode) create.options

/-! ## One option -/

/-- A type of the user's that a bare `#[choice]` is accepted on derives `CommandChoice`. -/
def Derives (env : Environment D) : Prop :=
  ∀ ty required, OptionalOf IsChoiceType ty required →
    ∃ (display : F64 → String) (derived : Derived display), env.kind ty = derived.optionKind ∧ env.choices ty = derived.choices

section Choices

variable {display : F64 → String}

theorem derived_kind (derived : Derived display) :
    derived.optionKind = (match derived.kind with | .string => .string | .integer => .integer | .number => .number) := by
  unfold Options.ChoiceEnum.optionKind
  cases derived.kind <;> rfl

/-- A choice of a derived enum is one Discord takes. -/
theorem derived_native (derived : Derived display) {choice : CommandChoiceDescriptor} (h : choice ∈ derived.choices) :
    NativeText choice.name ∧ NativeValue derived.optionKind (createChoice choice).value := by
  obtain ⟨variant, hv, hdescribed⟩ := forall₂_mem_right (collect_iff.mp derived.described) h
  have hc := checkVariants_ok (deriveChoice_ok derived.derived).1 variant hv
  obtain ⟨hname, hvalue⟩ := descriptor_ok hdescribed
  rw [derived_kind, hname, createChoice]
  unfold checkVariant at hc
  split at hc
  · cases hc
  rename_i hlength
  refine ⟨by unfold NativeText; omega, ?_⟩
  unfold Options.choiceValue at hvalue
  split at hvalue
  · rename_i hkind hnone
    rw [← Except.ok.inj hvalue, hkind]
    rw [hnone] at hc
    dsimp only at hc
    split at hc
    · cases hc
    · rename_i hlen
      exact Nat.not_lt.mp hlen
  · rename_i text hkind hsome
    rw [← Except.ok.inj hvalue, hkind]
    rw [hsome] at hc
    dsimp only at hc
    split at hc
    · cases hc
    · rename_i hlen
      exact Nat.not_lt.mp hlen
  · rename_i n hkind hsome
    rw [← Except.ok.inj hvalue, hkind]
    rw [hsome] at hc
    dsimp only at hc
    split at hc
    · cases hc
    · rename_i hrange
      show minIntegerValue ≤ n ∧ n ≤ maxIntegerValue
      unfold minIntegerValue maxIntegerValue
      omega
  · -- an integer among numbers
    rename_i n hkind hsome
    rw [← Except.ok.inj hvalue, hkind]
    rw [hsome] at hc
    dsimp only at hc
    split at hc
    · cases hc
    · exact ⟨F64.ofInt_finite (by omega), F64.ofInt_within (by omega)⟩
  · rename_i x hkind hsome
    rw [← Except.ok.inj hvalue, hkind]
    rw [hsome] at hc
    dsimp only at hc
    split at hc
    · cases hc
    · rename_i hrange
      simp only [Bool.or_eq_true, Bool.not_eq_true', not_or, Bool.not_eq_false,
        Bool.and_eq_false_iff] at hrange
      exact ⟨hrange.1, hrange.2⟩
  · cases hvalue

theorem derived_choices (derived : Derived display) :
    NativeChoices derived.optionKind (derived.choices.map createChoice) := by
  have hcount : derived.variants.length ≤ maxChoices := by
    have h := derived.derived
    unfold Options.deriveChoice at h
    split at h
    · cases h
    split at h
    · cases h
    · rename_i hfew
      exact Nat.not_lt.mp hfew
  refine ⟨by rw [List.length_map, derived.length_choices]; exact hcount, fun choice hm => ?_, ?_, ?_⟩
  · obtain ⟨described, hd, rfl⟩ := List.mem_map.mp hm
    exact derived_native derived hd
  · rw [List.map_map]
    exact derived.names_nodup
  · rw [List.pairwise_map]
    refine derived.values_pairwise.imp ?_
    intro a b h
    rw [← h]
    unfold createChoice
    cases a.value <;> cases b.value <;> first | rfl | exact Bool.beq_comm | exact F64.eq_comm _ _

theorem inline_choices {kind : OptionKind} {args : List ChoiceArgs} {choices : List InlineChoice}
    (h : ChoiceSchema kind args (.inline choices)) :
    NativeChoices kind.discord ((choices.map inlineChoice).map createChoice) := by
  cases h with
  | inline _ hcount _ hread hnames hvalues =>
    refine ⟨by rw [List.length_map, List.length_map, ← hread.length_eq]; exact hcount, fun choice hm => ?_, ?_, ?_⟩
    · obtain ⟨_, hd, rfl⟩ := List.mem_map.mp hm
      obtain ⟨choice, hc, rfl⟩ := List.mem_map.mp hd
      obtain ⟨args, -, hchoice⟩ := forall₂_mem_right hread hc
      obtain ⟨expression, -, hvalue⟩ := hchoice.value
      refine ⟨hchoice.length, ?_⟩
      obtain ⟨name, value⟩ := choice
      cases hvalue with
      | string hlength => exact hlength
      | integer hbound => exact hbound.2
      | number hbound => exact hbound.2
    · rw [List.map_map, List.map_map]
      exact hnames
    · rw [List.pairwise_map, List.pairwise_map]
      refine hvalues.imp ?_
      intro a b h
      rw [← h]
      unfold createChoice inlineChoice
      cases a.value <;> cases b.value <;> rfl

end Choices

section Bounds

variable {attrs : List Attribute} {kind : OptionKind} {option : ApplicationCommandOption}

theorem bounds_native {min max : Option NumericBound} (h : NumericSchema attrs kind min max) (hk : option.kind = kind.discord)
    (hmin : option.minValue = min.map NumericBound.value) (hmax : option.maxValue = max.map NumericBound.value) :
    NativeBounds option := by
  unfold NativeBounds
  rw [hk, hmin, hmax]
  cases kind with
  | integer =>
    obtain ⟨low, high, hlow, hhigh, hordered, rfl, rfl⟩ := h
    refine ⟨low, high, by cases low <;> rfl, by cases high <;> rfl, fun l hl => ?_, fun u hu => ?_, hordered⟩
    · obtain ⟨_, hreads⟩ := hlow.reads hl
      exact hreads.2
    · obtain ⟨_, hreads⟩ := hhigh.reads hu
      exact hreads.2
  | number =>
    obtain ⟨low, high, hlow, hhigh, hordered, rfl, rfl⟩ := h
    refine ⟨low, high, by cases low <;> rfl, by cases high <;> rfl, fun l hl => ?_, fun u hu => ?_, hordered⟩
    · obtain ⟨_, hreads⟩ := hlow.reads hl
      exact hreads.2
    · obtain ⟨_, hreads⟩ := hhigh.reads hu
      exact hreads.2
  | _ =>
    obtain ⟨-, -, rfl, rfl⟩ := h
    exact ⟨rfl, rfl⟩

theorem lengths_native {min max : Option Nat} (h : LengthSchema attrs kind min max) (hk : option.kind = kind.discord)
    (hmin : option.minLength = min) (hmax : option.maxLength = max) : NativeLengths option := by
  unfold NativeLengths
  rw [hk, hmin, hmax]
  cases kind with
  | string => exact ⟨h.2.2.1, h.2.2.2.1, h.2.2.2.2⟩
  | _ => exact ⟨h.2.2.1, h.2.2.2⟩

end Bounds

section Parameter

variable {env : Environment D} {unicode : Unicode} {option : OptionParameter}

theorem nativeChoices_nil (kind : ApplicationCommandOptionType) : NativeChoices kind [] :=
  ⟨Nat.zero_le _, fun _ h => (by cases h), .nil, .nil⟩

theorem unbounded_native {entry : ApplicationCommandOption} (hmin : entry.minValue = none) (hmax : entry.maxValue = none)
    (hlow : entry.minLength = none) (hhigh : entry.maxLength = none) : NativeBounds entry ∧ NativeLengths entry := by
  unfold NativeBounds NativeLengths
  rw [hmin, hmax, hlow, hhigh]
  constructor
  · cases entry.kind with
    | integer => exact ⟨none, none, rfl, rfl, by simp, by simp, by simp⟩
    | number => exact ⟨none, none, rfl, rfl, by simp, by simp, by simp⟩
    | _ => exact ⟨rfl, rfl⟩
  · cases entry.kind <;> simp

/-- A declared parameter is published as a native option. -/
theorem parameter_native (hresolves : env.Resolves) (hderives : Derives env) {argument : FnArg} (h : Declares unicode IsChoiceType argument option) :
    NativeScalar unicode (createScalarOption (optionDescriptor env option)) := by
  have hcompletes : (createScalarOption (optionDescriptor env option)).autocomplete = some true →
      (optionDescriptor env option).kind.completes = true ∧ (createScalarOption (optionDescriptor env option)).choices = [] := by
    intro hauto
    have hsome : option.autocomplete.isSome = true := by
      cases ho : option.autocomplete with
      | some path => rfl
      | none => simp [createScalarOption, optionDescriptor, ho] at hauto
    obtain ⟨hkind, hchoices⟩ := declared_completes hresolves h hsome
    exact ⟨hkind, List.map_eq_nil_iff.mpr hchoices⟩
  obtain ⟨attrs, -, -, htyped | ⟨kind, inline, hscalar⟩⟩ := h.parameter
  · obtain ⟨display, derived, hkind, hchoices⟩ := hderives option.ty option.required htyped.type
    obtain ⟨hsource, -, hmin, hmax, hminLength, hmaxLength⟩ := htyped.carried
    have hbounds := @unbounded_native (createScalarOption (optionDescriptor env option))
      (by simp [createScalarOption, optionDescriptor, hmin]) (by simp [createScalarOption, optionDescriptor, hmax])
      (by simp [createScalarOption, optionDescriptor, hminLength]) (by simp [createScalarOption, optionDescriptor, hmaxLength])
    refine ⟨h.name.2, h.description, ?_, rfl, ?_, hcompletes, hbounds.1, hbounds.2, rfl⟩
    · show ∃ kind : OptionKind, env.kind option.ty = kind.discord
      rw [hkind, derived_kind]
      cases derived.kind with
      | string => exact ⟨.string, rfl⟩
      | integer => exact ⟨.integer, rfl⟩
      | number => exact ⟨.number, rfl⟩
    · simp only [createScalarOption, optionDescriptor, hsource, hkind, hchoices]
      exact derived_choices derived
  · have hkind : env.kind option.ty = kind.discord :=
      hresolves option.ty kind option.required (optionType_iff.mpr hscalar.type)
    refine ⟨h.name.2, h.description, ⟨kind, hkind⟩, rfl, ?_, hcompletes,
      bounds_native hscalar.bounds hkind rfl rfl, lengths_native hscalar.lengths hkind rfl rfl, rfl⟩
    simp only [createScalarOption, optionDescriptor, hkind]
    cases hsource : option.choices with
    | none => exact nativeChoices_nil _
    | inline choices => exact inline_choices (hsource ▸ hscalar.inline)
    | typed =>
      have hinline := hscalar.inline
      rw [hsource] at hinline
      cases hinline

theorem parameters_native (hresolves : env.Resolves) (hderives : Derives env) {function : ItemFn} {options : List OptionParameter}
    (h : optionParameters unicode function.inputs = .ok options)
    (hdistinct : ((function.inputs.filterMap FnArg.ident).map Ident.unraw).Nodup) :
    NativeScalars unicode ((options.map (optionDescriptor env)).map createScalarOption) := by
  obtain ⟨hcount, hdeclares, hfirst⟩ := optionParameters_iff.mp h
  refine ⟨?_, fun entry hm => ?_, ?_, ?_⟩
  · rw [List.length_map, List.length_map, ← hdeclares.length_eq, List.length_drop]
    exact hcount
  · obtain ⟨_, hd, rfl⟩ := List.mem_map.mp hm
    obtain ⟨option, ho, rfl⟩ := List.mem_map.mp hd
    obtain ⟨argument, -, hdeclared⟩ := forall₂_mem_right hdeclares ho
    exact parameter_native hresolves hderives hdeclared
  · rw [List.map_map, List.map_map]
    exact options_nodup h hdistinct
  · rw [List.pairwise_map, List.pairwise_map]
    refine hfirst.imp ?_
    intro earlier later hrequired hlater
    exact congrArg some (hrequired (Option.some.inj hlater))

end Parameter

/-! ## A nest -/

def Described (unicode : Unicode) (command : SlashCommand D) : Prop :=
  ValidName unicode command.descriptor.name ∧ NativeText command.descriptor.description

def PublishedLeaf (unicode : Unicode) (command : SlashCommand D) : Prop :=
  command.isLeaf = true ∧ Described unicode command ∧ NativeScalars unicode (publishedOptions command)

def PublishedGroup (unicode : Unicode) (Child : SlashCommand D → Prop) (command : SlashCommand D) : Prop :=
  command.isLeaf = false ∧ Described unicode command ∧ ∀ child ∈ command.children, Child child

def PublishedChild (unicode : Unicode) (command : SlashCommand D) : Prop :=
  PublishedLeaf unicode command ∨ PublishedGroup unicode (PublishedLeaf unicode) command

def Published (unicode : Unicode) (command : SlashCommand D) : Prop :=
  PublishedLeaf unicode command ∨ PublishedGroup unicode (PublishedChild unicode) command

section Nest

variable {unicode : Unicode} {env : Environment D}

theorem expandCommand_described {arguments : Arguments} {function : ItemFn} {expansion : CommandExpansion}
    (h : expandCommand unicode arguments function = .ok expansion) :
    ValidName unicode expansion.name ∧ NativeText expansion.description := by
  unfold expandCommand at h
  split at h
  · cases h
  · split at h
    · cases h
    · split at h
      · cases h
      · unfold expandNamed at h
        split at h
        · cases h
        · rename_i hname
          split at h
          · cases h
          · rename_i hdescription
            have hboth := And.intro ((validateName_iff _ _).mp hname) ((validateDescription_iff _).mp hdescription)
            split at h
            · cases h
            · split at h
              · cases h
              · split at h
                · cases h
                · cases h
                  exact hboth

theorem expandGroup_described {arguments : Arguments} {ident : Ident} {items : Option (List Item)} {expansion : GroupExpansion}
    (h : expandGroup unicode arguments ident items = .ok expansion) :
    ValidName unicode expansion.name ∧ NativeText expansion.description := by
  unfold expandGroup at h
  split at h
  · cases h
  · split at h
    · cases h
    · split at h
      · cases h
      · rename_i hname
        split at h
        · cases h
        · rename_i hdescription
          have hboth := And.intro ((validateName_iff _ _).mp hname) ((validateDescription_iff _).mp hdescription)
          split at h
          · cases h
          · unfold expandBody at h
            split at h
            · cases h
            · split at h
              · cases h
              · split at h
                · cases h
                · cases h
                · cases h
                  exact hboth

/-- A function is published as a leaf; nothing else that is no group is published. -/
theorem expandItem_leaf (hresolves : env.Resolves) (hderives : Derives env) {item : Item} {factories : List (Option (SlashCommand D))}
    (h : expandItem unicode env item = .ok factories) (hgroup : item.isGroup = false)
    (hcompiles : ∀ function ∈ commands item, Compiles function) : Build (PublishedLeaf unicode) factories := by
  cases expandItem_expandsTo.mp h with
  | plain => exact build_nil
  | @command function attr expansion hattr _ hexpansion =>
    have hc := hcompiles function (by simp [commands, hasAttribute, hattr])
    obtain ⟨hargs, hoptions⟩ := expandCommand_ok hexpansion
    obtain ⟨kind, hfactory, -⟩ := factory_some env (hc.limit attr expansion.args · hattr hargs)
    refine ⟨[_], by rw [hfactory]; rfl, fun tree ht => ?_⟩
    rw [List.mem_singleton.mp ht]
    exact ⟨rfl, expandCommand_described hexpansion, parameters_native hresolves hderives hoptions hc.parameters⟩
  | group hattr =>
    simp only [Item.isGroup, hasAttribute, hattr] at hgroup
    cases hgroup

/-- One level of the nest, by what its items are published as. -/
theorem expandItem_level {Child : SlashCommand D → Prop} {attrs : List Attribute} {ident : Ident} {items : List Item}
    {factories : List (Option (SlashCommand D))} (hgroup : hasAttribute attrs "group" = true)
    (h : expandItem unicode env (.mod attrs ident items) = .ok factories)
    (hitems : ∀ item ∈ items, ∀ factories, validateNativeHierarchy items = .ok () →
      expandItem unicode env item = .ok factories → Build Child factories) :
    Build (PublishedGroup unicode Child) factories := by
  cases expandItem_expandsTo.mp h with
  | plain hplain =>
    have hnone : findAttribute attrs "group" = none := hplain.2
    simp only [hasAttribute, hnone] at hgroup
    cases hgroup
  | @group _ attr _ _ expansion built hattr _ hexpansion hbuilt =>
    obtain ⟨_, ⟨⟩, hnative, -⟩ := expandGroup_ok hexpansion
    obtain ⟨trees, rfl, htrees⟩ := expandItems_build (fun item hi factories hf => hitems item hi factories hnative hf) hbuilt
    rw [Lib.allSome_map_some]
    refine ⟨[.group expansion.descriptor trees], rfl, fun tree ht => ?_⟩
    rw [List.mem_singleton.mp ht]
    exact ⟨rfl, expandGroup_described hexpansion, htrees⟩

/-- What a whole nest is published as. -/
theorem expandItem_published (hresolves : env.Resolves) (hderives : Derives env) {item : Item} {factories : List (Option (SlashCommand D))}
    (h : expandItem unicode env item = .ok factories) (hcompiles : ∀ function ∈ commands item, Compiles function) :
    Build (Published unicode) factories := by
  cases hgroup : item.isGroup with
  | false => exact (expandItem_leaf hresolves hderives h hgroup hcompiles).imp fun _ => .inl
  | true =>
    obtain ⟨attrs, ident, items, rfl, hattr⟩ := group_inline h hgroup
    have hitems : ∀ function ∈ commandsOf items, Compiles function := by
      intro function hf
      refine hcompiles function ?_
      simp only [commands, hattr, if_true]
      exact hf
    refine (expandItem_level hattr h fun item hi factories hnative hf => ?_).imp fun _ => .inr
    have hown : ∀ function ∈ commands item, Compiles function := fun function hm => hitems function (commands_mem hi hm)
    cases hinner : item.isGroup with
    | false => exact (expandItem_leaf hresolves hderives hf hinner hown).imp fun _ => .inl
    | true =>
      obtain ⟨attrs, ident, children, rfl, hattr⟩ := group_inline hf hinner
      have hleaves := native_children hnative attrs ident children hi hattr
      refine (expandItem_level hattr hf fun child hc factories _ hfc =>
        expandItem_leaf hresolves hderives hfc (hleaves child hc) fun function hm => hown function ?_).imp fun _ => .inr
      simp only [commands, hattr, if_true]
      exact commands_mem hc hm

end Nest

/-! ## The payload -/

/-- No group of the tree has more children than Discord takes. -/
def SmallGroups (command : SlashCommand D) : Prop :=
  command.children.length ≤ maxCommandOptions ∧ ∀ child ∈ command.children, child.children.length ≤ maxCommandOptions

section Payload

variable {unicode : Unicode} {command : SlashCommand D}

theorem hierarchy_native (h : Described unicode command) (kind : ApplicationCommandOptionType)
    (options : List ApplicationCommandOption) : NativeBranch unicode kind (createHierarchyOption command kind options) :=
  ⟨rfl, h.1, h.2, rfl, ⟨rfl, rfl, rfl, rfl⟩, rfl, rfl⟩

theorem leaf_native (h : PublishedLeaf unicode command) :
    NativeSub unicode (createHierarchyOption command .subCommand (publishedOptions command)) :=
  ⟨hierarchy_native h.2.1 _ _, h.2.2⟩

theorem childOption_name (command : SlashCommand D) : (createChildOption command).name = command.descriptor.name := by
  unfold createChildOption
  split <;> rfl

theorem childOption_group (h : command.isLeaf = false) :
    createChildOption command = createHierarchyOption command .subCommandGroup (command.children.map fun child =>
      createHierarchyOption child .subCommand (publishedOptions child)) := by
  rw [createChildOption, if_neg (by rw [h]; exact Bool.false_ne_true)]
  rfl

/-- A child is published as native exactly when it has few children. -/
theorem child_native (hv : ValidChild command) (h : PublishedChild unicode command) :
    NativeChild unicode (createChildOption command) ↔ command.children.length ≤ maxCommandOptions := by
  cases hv with
  | sub hs =>
    cases hs with
    | leaf =>
      have hleaf : PublishedLeaf unicode _ := h.resolve_right fun hg => by cases hg.1
      exact ⟨fun _ => Nat.zero_le _, fun _ => .inl (leaf_native hleaf)⟩
  | @group descriptor subs hg =>
    obtain ⟨hleaf, hdescribed, hchildren⟩ := h.resolve_left fun hl => by cases hl.1
    rw [childOption_group hleaf]
    constructor
    · intro hnative
      rcases hnative with hsub | ⟨-, hlevel⟩
      · cases hsub.1.kind
      · exact (List.length_map _).ge.trans hlevel.count
    · intro hcount
      refine .inr ⟨hierarchy_native hdescribed _ _, ?_, ?_, ?_, fun option hm => ?_⟩
      · exact fun hnil => hg.nonempty (List.map_eq_nil_iff.mp hnil)
      · exact (List.length_map _).trans_le hcount
      · show ((subs.map _).map _).Nodup
        rw [List.map_map]
        exact hg.distinct
      · obtain ⟨child, hc, rfl⟩ := List.mem_map.mp hm
        exact leaf_native (hchildren child hc)

theorem command_native (hv : Valid command) (h : Published unicode command) :
    NativeCommand unicode (createCommand command) ↔ SmallGroups command := by
  cases hv with
  | leaf =>
    obtain ⟨-, hdescribed, hscalars⟩ := h.resolve_right fun hg => by cases hg.1
    refine ⟨fun _ => ⟨Nat.zero_le _, fun _ hc => (by cases hc)⟩, fun _ => ⟨hdescribed.1, hdescribed.2, .inl hscalars⟩⟩
  | @group descriptor children hg =>
    obtain ⟨-, hdescribed, hchildren⟩ := h.resolve_left fun hl => by cases hl.1
    constructor
    · intro hnative
      rcases hnative.options with hscalars | hlevel
      · -- a level is no scalar option
        obtain ⟨child, hc⟩ := List.exists_mem_of_ne_nil children hg.nonempty
        have hrequired := (hscalars.each _ (List.mem_map_of_mem hc)).required
        have hnot := createChild_not_scalar child
        rw [ApplicationCommandOption.isScalar, hrequired] at hnot
        cases hnot
      · refine ⟨?_, fun child hc => ?_⟩
        · exact (List.length_map _).ge.trans hlevel.count
        · exact (child_native (hg.children child hc) (hchildren child hc)).mp (hlevel.each _ (List.mem_map_of_mem hc))
    · intro hgroups
      obtain ⟨hcount, hsmall⟩ := hgroups
      refine ⟨hdescribed.1, hdescribed.2, .inr ⟨?_, ?_, ?_, fun option hm => ?_⟩⟩
      · exact fun hnil => hg.nonempty (List.map_eq_nil_iff.mp hnil)
      · exact (List.length_map _).trans_le hcount
      · show ((children.map createChildOption).map _).Nodup
        rw [List.map_map, show (fun option : ApplicationCommandOption => option.name) ∘ createChildOption =
          fun child : SlashCommand D => child.descriptor.name from funext childOption_name]
        exact hg.distinct
      · obtain ⟨child, hc, rfl⟩ := List.mem_map.mp hm
        exact (child_native (hg.children child hc) (hchildren child hc)).mpr (hsmall child hc)

end Payload

/-- Whatever nest is expanded and registered: its payload keeps Discord's rules exactly
    when no group of it has more than 25 children. -/
theorem published_native {unicode : Unicode} {env : Environment D} (hresolves : env.Resolves) (hderives : Derives env) {item : Item}
    {factories : List (Option (SlashCommand D))} (h : expandItem unicode env item = .ok factories)
    (hcompiles : ∀ function ∈ commands item, Compiles function) {command : SlashCommand D}
    (hbuilt : some command ∈ factories) {registry : CommandRegistry D} (hregistered : command ∈ registry.iter) :
    NativeCommand unicode (createCommand command) ↔ SmallGroups command := by
  obtain ⟨trees, rfl, htrees⟩ := expandItem_published hresolves hderives h hcompiles
  obtain ⟨tree, ht, hsame⟩ := List.mem_map.mp hbuilt
  obtain rfl := Option.some.inj hsame
  exact command_native (CommandRegistry.valid (CommandRegistry.mem_iter.mp hregistered)) (htrees tree ht)

theorem choiceType_refused {ty : RustType} {required : Bool} (h : OptionalOf IsChoiceType ty required) :
    ∃ error, optionType ty = .error error := by
  cases ho : optionType ty with
  | error error => exact ⟨error, rfl⟩
  | ok found =>
    obtain ⟨kind, inner⟩ := found
    have hdisjoint : ∀ ty, IsChoiceType ty → ¬ IsScalar kind ty := by
      rintro ty ⟨ident, hpath, hnone, -⟩ ⟨other, hpath', hsome⟩
      cases hpath with
      | intro hlast =>
        cases hpath' with
        | intro hlast' =>
          rw [hlast'] at hlast
          cases hlast
          rw [hnone] at hsome
          cases hsome
    have hplain : ∀ {ty inner : RustType} {ident : Ident}, PlainPath ty ident → ¬ OptionOf ty inner := by
      intro ty inner ident hpath hoption
      cases hpath with
      | intro hlast =>
        cases hoption with
        | intro hlast' =>
          rw [hlast'] at hlast
          cases hlast
    rcases optionType_iff.mp ho with ⟨-, hscalar⟩ | ⟨-, inner, hoption, hscalar⟩
    · rcases h with ⟨-, hchoice⟩ | ⟨-, _, hoption, -⟩
      · exact absurd hscalar (hdisjoint ty hchoice)
      · obtain ⟨ident, hpath, -⟩ := hscalar
        exact absurd hoption (hplain hpath)
    · rcases h with ⟨-, ident, hpath, -⟩ | ⟨-, found, hoption', hchoice⟩
      · exact absurd hoption (hplain hpath)
      · cases hoption with
        | intro hlast =>
          cases hoption' with
          | intro hlast' =>
            rw [hlast'] at hlast
            cases hlast
            exact absurd hscalar (hdisjoint _ hchoice)

def shade : Derived printed where
  variants := [⟨"Dark", "Dark", none⟩]
  kind := .string
  derived := rfl
  choices := [⟨"Dark", .string "Dark"⟩]
  described := rfl

/-- Every type of the user's is `Shade`. -/
def shaded : Environment Unit := { resolved with choices := fun _ => shade.choices }

theorem shaded_resolves : shaded.Resolves := resolved_resolves

theorem shaded_derives : Derives shaded := by
  intro ty required h
  obtain ⟨error, herror⟩ := choiceType_refused h
  refine ⟨printed, shade, ?_, rfl⟩
  unfold shaded resolved
  dsimp only
  rw [herror]
  rfl

theorem published_native_admin :
    expandItem ascii shaded admin = .ok [some adminTree] ∧ NativeCommand ascii (createCommand adminTree) := by
  have hexpand : expandItem ascii shaded admin = .ok [some adminTree] := rfl
  have hcompiles : ∀ function ∈ commands admin, Compiles function := by
    intro function hf
    rcases List.mem_cons.mp (show function ∈ [ban, set] from hf) with rfl | hf
    · exact handlerFn_compiles (by decide)
    · rw [List.mem_singleton.mp hf]
      exact handlerFn_compiles (by decide)
  have hget : (CommandRegistry.new.insertCalls [adminTree]).get adminTree.descriptor.name = some adminTree := by
    rw [CommandRegistry.insertCalls_get, show (CommandRegistry.new : CommandRegistry Unit).get _ = none from rfl]
    rfl
  refine ⟨hexpand, (published_native shaded_resolves shaded_derives hexpand hcompiles (List.mem_singleton_self _)
    (CommandRegistry.mem_iter.mpr hget)).mpr ⟨by decide, fun child hc => ?_⟩⟩
  rcases List.mem_cons.mp hc with rfl | hc
  · exact Nat.zero_le _
  · rw [List.mem_singleton.mp hc]
    decide

end GloamCommands.Macros
