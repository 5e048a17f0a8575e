/-
  GloamCommands.Macros.Nest — the nests of `#[group]` modules and `#[command]` functions
  that expand (`expand` in crates/gloam-commands-macros/src/command.rs and src/group.rs).

  `IsCommand` and `IsGroup` say of one attributed item what it must be and what is made of
  it; `Expands` puts them together along a nest. Of the state type that a group looks for
  nothing is said: a nest whose items expand has one (`items_state`).
  - `expandCommand_iff`: one function.
  - `nest_exact`: the macros accept exactly the nests that `Expands` relates, and the
    factory builds the tree it relates them to.
-/

import GloamCommands.Macros.Acceptance
import GloamCommands.Macros.Arguments

namespace GloamCommands.Macros

open Lib (map_ok allSome)

/-! ## One function -/

def TakesContext (function : ItemFn) (state : RustType) : Prop :=
  ∃ attrs pat segments ident, function.inputs.head? = some (.typed attrs pat (.path segments)) ∧
    segments.getLast? = some (.mk ident (.angleBracketed [.type state])) ∧ ident.toString = "Context"

def ReturnsUnit (output : Option RustType) : Prop :=
  ∃ segments ident, output = some (.path segments) ∧
    segments.getLast? = some (.mk ident (.angleBracketed [.type (.tuple [])])) ∧ ident.toString = "Result"

/-- An async function of a context and of options, that returns nothing or fails. -/
structure IsCommandFn (function : ItemFn) (state : RustType) : Prop where
  plain : function.isAsync = true ∧ function.isConst = false ∧ function.isUnsafe = false ∧ function.hasAbi = false ∧
    function.isGeneric = false ∧ function.isVariadic = false
  context : TakesContext function state
  output : ReturnsUnit function.output

/-- What `#[command]` makes of a function, and what the function must be. -/
structure IsCommand (unicode : Unicode) (arguments : Arguments) (function : ItemFn) (expansion : CommandExpansion) :
    Prop where
  declared : ∃ entries, arguments = some entries ∧ DeclaresCommand entries expansion.args
  carried : expansion.function = function
  signature : IsCommandFn function expansion.stateType
  name : expansion.name = expansion.args.name.getD function.ident.unraw ∧ ValidName unicode expansion.name
  description : expansion.args.description = some expansion.description ∧ 1 ≤ expansion.description.length ∧
    expansion.description.length ≤ 100
  options : DeclaresOptions unicode function.inputs expansion.options

theorem commandContext_iff {function : ItemFn} {state : RustType} :
    (∃ context, contextType function = .ok context ∧ stateType context = .ok state) ↔ TakesContext function state := by
  constructor
  · intro h
    obtain ⟨context, hcontext, hstate⟩ := h
    unfold contextType at hcontext
    split at hcontext
    · cases hcontext
    · cases hcontext
    · rename_i attrs pat segments hinput
      split at hcontext
      · cases hcontext
      · rename_i segment hlast
        split at hcontext
        · cases hcontext
        · rename_i hname
          cases hcontext
          obtain ⟨ident, arguments⟩ := segment
          simp only [stateType, hlast] at hstate
          split at hstate
          · rename_i stateType harguments
            cases hstate
            obtain rfl : arguments = _ := harguments
            exact ⟨attrs, pat, segments, ident, hinput, hlast, by simpa [PathSegment.ident] using hname⟩
          · cases hstate
          · cases hstate
    · cases hcontext
  · intro h
    obtain ⟨attrs, pat, segments, ident, hinput, hlast, hname⟩ := h
    refine ⟨.path segments, ?_, ?_⟩
    · simp [contextType, hinput, hlast, PathSegment.ident, hname]
    · simp [stateType, hlast, PathSegment.arguments]

theorem commandReturnType_iff {output : Option RustType} : validateReturnType output = .ok () ↔ ReturnsUnit output := by
  constructor
  · intro h
    unfold validateReturnType at h
    split at h
    · rename_i segments
      split at h
      · rename_i ident hlast
        split at h
        · cases h
        · rename_i hname
          exact ⟨segments, ident, rfl, hlast, by simpa using hname⟩
      · cases h
    · cases h
  · intro ⟨segments, ident, houtput, hlast, hname⟩
    simp [validateReturnType, houtput, hlast, hname]

/-- A signature is checked before the state type is asked for. -/
theorem commandSignature_iff {function : ItemFn} {state : RustType} :
    (validateSignature function = .ok () ∧ ∃ context, contextType function = .ok context ∧ stateType context = .ok state) ↔
      IsCommandFn function state := by
  rw [commandContext_iff]
  constructor
  · intro ⟨h, hcontext⟩
    unfold validateSignature at h
    repeat
      split at h
      · cases h
    rename_i hasync hconst hunsafe habi hgeneric hvariadic _ houtput
    simp only [Bool.not_eq_true, Bool.not_eq_false'] at hasync hconst hunsafe habi hgeneric hvariadic
    exact ⟨⟨hasync, hconst, hunsafe, habi, hgeneric, hvariadic⟩, hcontext, commandReturnType_iff.mp houtput⟩
  · intro h
    obtain ⟨hasync, hconst, hunsafe, habi, hgeneric, hvariadic⟩ := h.plain
    obtain ⟨context, hcontext, -⟩ := commandContext_iff.mpr h.context
    refine ⟨?_, h.context⟩
    simp [validateSignature, hasync, hconst, hunsafe, habi, hgeneric, hvariadic, commandReturnType_iff.mpr h.output,
      hcontext, Except.map]

/-- The functions `#[command]` accepts, and what it makes of each. -/
theorem expandCommand_iff {unicode : Unicode} {arguments : Arguments} {function : ItemFn} {expansion : CommandExpansion} :
    expandCommand unicode arguments function = .ok expansion ↔ IsCommand unicode arguments function expansion := by
  constructor
  · intro h
    unfold expandCommand at h
    split at h
    · cases h
    rename_i args hargs
    split at h
    · cases h
    rename_i hsignature
    split at h
    · cases h
    rename_i description hdescription
    unfold expandNamed at h
    split at h
    · cases h
    rename_i hname
    split at h
    · cases h
    rename_i hlength
    split at h
    · cases h
    rename_i context hcontext
    split at h
    · cases h
    rename_i state hstate
    split at h
    · cases h
    rename_i options hoptions
    cases h
    exact {
      declared := parseCommandArgs_iff.mp hargs
      carried := rfl
      signature := commandSignature_iff.mp ⟨hsignature, context, hcontext, hstate⟩
      name := ⟨rfl, (validateName_iff _ _).mp hname⟩
      description := ⟨hdescription, (validateDescription_iff _).mp hlength⟩
      options := optionParameters_iff.mp hoptions }
  · intro h
    obtain ⟨hsignature, context, hcontext, hstate⟩ := commandSignature_iff.mpr h.signature
    have hname := (validateName_iff _ _).mpr h.name.2
    rw [h.name.1] at hname
    have hexpansion : expansion = ⟨function, expansion.args, expansion.args.name.getD function.ident.unraw,
        expansion.description, expansion.stateType, expansion.options⟩ := by
      rw [← h.name.1, ← h.carried]
    simp only [expandCommand, expandNamed, parseCommandArgs_iff.mpr h.declared, hsignature, h.description.1, hname,
      (validateDescription_iff _).mpr h.description.2, hcontext, hstate, optionParameters_iff.mpr h.options]
    rw [← hexpansion]

/-! ## One group -/

def Item.isChild (item : Item) : Bool := item.isCommand || item.isGroup

/-- What `#[group]` makes of a module, and what the module must be: it collects something,
    the groups in it have a body, and there is no group below those. -/
structure IsGroup (unicode : Unicode) (arguments : Arguments) (ident : Ident) (items : List Item)
    (descriptor : CommandDescriptor) : Prop where
  declared : ∃ entries args, arguments = some entries ∧ DeclaresGroup entries args ∧
    args.description = some descriptor.description ∧ descriptor.name = args.name.getD ident.unraw
  name : ValidName unicode descriptor.name
  description : 1 ≤ descriptor.description.length ∧ descriptor.description.length ≤ 100
  noOptions : descriptor.options = []
  collects : items.any Item.isChild = true
  native : ∀ item ∈ items, item.isGroup = true → ∃ attrs ident children, item = .mod attrs ident children ∧
    ∀ child ∈ children, child.isGroup = false

theorem nativeHierarchy_iff (items : List Item) :
    validateNativeHierarchy items = .ok () ↔
      ∀ item ∈ items, item.isGroup = true → ∃ attrs ident children, item = .mod attrs ident children ∧
        ∀ child ∈ children, child.isGroup = false := by
  induction items with
  | nil => exact ⟨fun _ _ h => absurd h List.not_mem_nil, fun _ => rfl⟩
  | cons item rest ih =>
    rw [List.forall_mem_cons]
    cases item with
    | fn function => exact ih.trans ⟨fun h => ⟨fun hg => (by cases hg), h⟩, fun h => h.2⟩
    | other => exact ih.trans ⟨fun h => ⟨fun hg => (by cases hg), h⟩, fun h => h.2⟩
    | external attrs ident =>
      rw [validateNativeHierarchy]
      by_cases hgroup : hasAttribute attrs "group" = true
      · rw [if_pos hgroup]
        refine ⟨fun h => (by cases h), fun h => ?_⟩
        obtain ⟨_, _, _, heq, _⟩ := h.1 hgroup
        cases heq
      · rw [if_neg hgroup, ih]
        exact ⟨fun h => ⟨fun hg => absurd hg hgroup, h⟩, fun h => h.2⟩
    | mod attrs ident children =>
      rw [validateNativeHierarchy]
      by_cases hdeep : (hasAttribute attrs "group" && children.any Item.isGroup) = true
      · rw [if_pos hdeep]
        refine ⟨fun h => (by cases h), fun h => ?_⟩
        obtain ⟨hgroup, hchild⟩ := Bool.and_eq_true_iff.mp hdeep
        obtain ⟨_, _, _, heq, hnone⟩ := h.1 hgroup
        cases heq
        obtain ⟨child, hc, hg⟩ := List.any_eq_true.mp hchild
        rw [hnone child hc] at hg
        cases hg
      · rw [if_neg hdeep, ih]
        refine ⟨fun h => ⟨fun hgroup => ⟨attrs, ident, children, rfl, ?_⟩, h⟩, fun h => h.2⟩
        have hgroup : hasAttribute attrs "group" = true := hgroup
        rw [hgroup, Bool.true_and, Bool.not_eq_true, List.any_eq_false] at hdeep
        intro child hc
        exact Bool.not_eq_true _ ▸ hdeep child hc

/-- A group is accepted on its own once a state type is found below it. -/
theorem expandGroup_iff {unicode : Unicode} {arguments : Arguments} {ident : Ident} {items : List Item}
    {expansion : GroupExpansion} :
    expandGroup unicode arguments ident (some items) = .ok expansion ↔
      IsGroup unicode arguments ident items expansion.descriptor ∧
        findStateType items = .ok (some expansion.stateType) := by
  have hcollects : (childFactories items).isEmpty = true ↔ ¬ items.any Item.isChild = true := by
    simp [childFactories, Item.isChild]
  constructor
  · intro h
    unfold expandGroup at h
    split at h
    · cases h
    rename_i args hargs
    split at h
    · cases h
    rename_i description hdescription
    split at h
    · cases h
    rename_i hname
    split at h
    · cases h
    rename_i hlength
    unfold expandBody at h
    dsimp only at h
    split at h
    · cases h
    rename_i hnative
    split at h
    · cases h
    rename_i hsome
    split at h
    · cases h
    · cases h
    rename_i state hstate
    cases h
    obtain ⟨entries, harguments, hdeclares⟩ := parseGroupArgs_iff.mp hargs
    refine ⟨?_, hstate⟩
    exact {
      declared := ⟨entries, args, harguments, hdeclares, hdescription, rfl⟩
      name := (validateName_iff _ _).mp hname
      description := (validateDescription_iff _).mp hlength
      noOptions := rfl
      collects := Decidable.not_not.mp fun hnone => hsome (hcollects.mpr hnone)
      native := (nativeHierarchy_iff items).mp hnative }
  · intro ⟨h, hstate⟩
    obtain ⟨entries, args, harguments, hdeclares, hdescription, hnamed⟩ := h.declared
    have hname := (validateName_iff _ _).mpr h.name
    rw [hnamed] at hname
    have hsome : ¬ (childFactories items).isEmpty = true := fun hempty => hcollects.mp hempty h.collects
    have hexpansion : expansion = ⟨args.name.getD ident.unraw, expansion.description, expansion.stateType⟩ := by
      rw [← hnamed]
      rfl
    have hlength := (validateDescription_iff _).mpr h.description
    simp only [expandGroup, expandBody, parseGroupArgs_iff.mpr ⟨entries, harguments, hdeclares⟩, hdescription, hname,
      hlength, (nativeHierarchy_iff items).mpr h.native, if_neg hsome, hstate]
    rw [hexpansion]
    rfl

/-! ## A nest -/

section Nest

variable {D : Type} {unicode : Unicode} {env : Environment D}

mutual

/-- An item, and the factories of it that a group would call. -/
inductive Expands (unicode : Unicode) (env : Environment D) : Item → List (Option (SlashCommand D)) → Prop where
  | command {function : ItemFn} {attr : Attribute} {expansion : CommandExpansion} :
      findAttribute function.attrs "command" = some attr → findAttribute function.attrs "group" = none →
      IsCommand unicode attr.style.tokens function expansion → Expands unicode env (.fn function) [expansion.factory env]
  | group {attrs : List Attribute} {attr : Attribute} {ident : Ident} {items : List Item} {descriptor : CommandDescriptor}
      {factories : List (Option (SlashCommand D))} :
      findAttribute attrs "group" = some attr → findAttribute attrs "command" = none →
      IsGroup unicode attr.style.tokens ident items descriptor → ExpandsAll unicode env items factories →
      Expands unicode env (.mod attrs ident items) [(allSome factories).map fun children => .group descriptor children]
  /-- Nothing is collected, but what is in a module is expanded too. -/
  | plain {item : Item} {inner : List (Option (SlashCommand D))} : item.Unmarked → ExpandsAll unicode env item.body inner →
      Expands unicode env item []

inductive ExpandsAll (unicode : Unicode) (env : Environment D) : List Item → List (Option (SlashCommand D)) → Prop where
  | nil : ExpandsAll unicode env [] []
  | cons {item : Item} {items : List Item} {first others : List (Option (SlashCommand D))} :
      Expands unicode env item first → ExpandsAll unicode env items others →
      ExpandsAll unicode env (item :: items) (first ++ others)

end

theorem unmarked_child {item : Item} (h : item.Unmarked) :
    item.isChild = false ∧ itemStateType item = .ok none := by
  obtain ⟨hcommand, hgroup⟩ := h
  cases item <;>
    simp_all [Item.attrs, Item.isChild, Item.isCommand, Item.isGroup, hasAttribute, itemStateType]

mutual

theorem item_state : ∀ {item : Item} {factories : List (Option (SlashCommand D))}, Expands unicode env item factories →
    if item.isChild then ∃ state, itemStateType item = .ok (some state) else itemStateType item = .ok none
  | .fn function, _, h => by
    cases h with
    | @command _ attr expansion hattr _ hcommand =>
      obtain ⟨context, hcontext, hstate⟩ := commandContext_iff.mpr hcommand.signature.context
      rw [if_pos (by simp [Item.isChild, Item.isCommand, hasAttribute, hattr])]
      exact ⟨expansion.stateType, by simp [itemStateType, hasAttribute, hattr, hcontext, hstate, Except.map]⟩
    | plain hplain _ =>
      rw [(unmarked_child hplain).1, if_neg Bool.false_ne_true]
      exact (unmarked_child hplain).2
  | .mod attrs ident items, _, h => by
    cases h with
    | @group _ attr _ _ _ _ hattr _ hgroup hitems =>
      have hstate := items_state hitems
      rw [if_pos hgroup.collects] at hstate
      rw [if_pos (by simp [Item.isChild, Item.isGroup, hasAttribute, hattr])]
      simpa [itemStateType, hasAttribute, hattr] using hstate
    | plain hplain _ =>
      rw [(unmarked_child hplain).1, if_neg Bool.false_ne_true]
      exact (unmarked_child hplain).2
  | .external attrs ident, _, h => by
    cases h with
    | plain hplain _ =>
      rw [(unmarked_child hplain).1, if_neg Bool.false_ne_true]
      exact (unmarked_child hplain).2
  | .other _, _, _ => rfl
termination_by structural item => item

theorem items_state : ∀ {items : List Item} {factories : List (Option (SlashCommand D))},
    ExpandsAll unicode env items factories →
      if items.any Item.isChild then ∃ state, findStateType items = .ok (some state) else findStateType items = .ok none
  | [], _, _ => rfl
  | item :: rest, _, h => by
    cases h with
    | cons hitem hrest =>
      have hfirst := item_state hitem
      have hothers := items_state hrest
      rw [List.any_cons]
      by_cases hchild : item.isChild = true
      · rw [if_pos hchild] at hfirst
        obtain ⟨state, hstate⟩ := hfirst
        rw [hchild, Bool.true_or, if_pos rfl]
        exact ⟨state, by simp [findStateType, hstate]⟩
      · rw [if_neg hchild] at hfirst
        rw [Bool.not_eq_true] at hchild
        rw [hchild, Bool.false_or, findStateType, hfirst]
        exact hothers
termination_by structural items => items

end

/-- One level of the nest; the items in it are given. -/
theorem expandsTo_iff {item : Item} {factories : List (Option (SlashCommand D))}
    (hbody : ∀ inner, expandItems unicode env item.body = .ok inner ↔ ExpandsAll unicode env item.body inner) :
    ExpandsTo unicode env item factories ↔ Expands unicode env item factories := by
  constructor
  · intro h
    cases h with
    | plain hplain hinner => exact .plain hplain ((hbody _).mp hinner)
    | command hattr hgroup hexpand => exact .command hattr hgroup (expandCommand_iff.mp hexpand)
    | group hattr hcommand hexpand hbuilt => exact .group hattr hcommand (expandGroup_iff.mp hexpand).1 ((hbody _).mp hbuilt)
  · intro h
    cases h with
    | plain hplain hinner => exact .plain hplain ((hbody _).mpr hinner)
    | command hattr hgroup hcommand => exact .command hattr hgroup (expandCommand_iff.mpr hcommand)
    | @group attrs attr ident items descriptor children hattr hcommand hgroup hitems =>
      -- the items expand, so that a state is found
      have hstate := items_state hitems
      rw [if_pos hgroup.collects] at hstate
      obtain ⟨state, hstate⟩ := hstate
      have hdescriptor : GroupExpansion.descriptor ⟨descriptor.name, descriptor.description, state⟩ = descriptor := by
        have hnone := hgroup.noOptions
        cases descriptor
        simp_all [GroupExpansion.descriptor]
      have hexpand := (@expandGroup_iff unicode attr.style.tokens ident items
        ⟨descriptor.name, descriptor.description, state⟩).mpr ⟨by rw [hdescriptor]; exact hgroup, hstate⟩
      rw [← hdescriptor]
      exact .group hattr hcommand hexpand ((hbody _).mpr hitems)

theorem expandNone_iff (factories : List (Option (SlashCommand D))) :
    expandItems unicode env [] = .ok factories ↔ ExpandsAll unicode env [] factories := by
  constructor
  · intro h
    cases h
    exact .nil
  · intro h
    cases h
    rfl

mutual

theorem expandItem_iff : ∀ {item : Item} {factories : List (Option (SlashCommand D))},
    expandItem unicode env item = .ok factories ↔ Expands unicode env item factories
  | .fn _, _ => expandItem_expandsTo.trans (expandsTo_iff expandNone_iff)
  | .mod _ _ _, _ => expandItem_expandsTo.trans (expandsTo_iff fun _ => expandItems_iff)
  | .external _ _, _ => expandItem_expandsTo.trans (expandsTo_iff expandNone_iff)
  | .other _, _ => expandItem_expandsTo.trans (expandsTo_iff expandNone_iff)
termination_by structural item => item

theorem expandItems_iff : ∀ {items : List Item} {factories : List (Option (SlashCommand D))},
    expandItems unicode env items = .ok factories ↔ ExpandsAll unicode env items factories
  | [], _ => expandNone_iff _
  | item :: rest, factories => by
    rw [expandItems]
    constructor
    · intro h
      split at h
      · cases h
      rename_i first hfirst
      obtain ⟨others, hothers, rfl⟩ := map_ok.mp h
      exact .cons (expandItem_iff.mp hfirst) (expandItems_iff.mp hothers)
    · intro h
      cases h with
      | cons hitem hrest =>
        rw [expandItem_iff.mpr hitem]
        exact map_ok.mpr ⟨_, expandItems_iff.mpr hrest, rfl⟩
termination_by structural items => items

end

/-- The nests the macros accept, and the factories they make of each. -/
theorem nest_exact (unicode : Unicode) (env : Environment D) (item : Item) (factories : List (Option (SlashCommand D))) :
    expandItem unicode env item = .ok factories ↔ Expands unicode env item factories :=
  expandItem_iff

end Nest

end GloamCommands.Macros
