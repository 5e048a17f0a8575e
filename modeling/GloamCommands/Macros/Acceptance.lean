/-
  GloamCommands.Macros.Acceptance — what the macros expand, the registry accepts.

  The macros check syntax when they are expanded, the registry checks the tree when it is
  registered, and neither knows of the other. A function is taken to compile: its
  parameters have different names, and tokio takes its limit for a semaphore.
  - `factory_leaf`: an expanded function is a valid leaf.
  - `expandItem_shaped`: an expanded nest is a tree of the right shape.
  - `expansion_accepted`: so it is registered, unless two siblings share a name.
-/

import GloamCommands.Core.Registry
import GloamCommands.Macros.Exact
import GloamCommands.Macros.Group

namespace GloamCommands.Macros

open Lib (map_ok find_key forall₂_mem_right allSome allSome_map_some)

variable {D : Type}

/-! ## What rustc and tokio see to -/

def FnArg.ident : FnArg → Option Ident
  | typed _ (.ident ident _) _ => some ident
  | _ => none

structure Compiles (function : ItemFn) : Prop where
  parameters : ((function.inputs.filterMap FnArg.ident).map Ident.unraw).Nodup
  limit : ∀ attr args limit, findAttribute function.attrs "command" = some attr →
    parseCommandArgs attr.style.tokens = .ok args → args.maxConcurrency = some limit → limit ≤ maxPermits

mutual

/-- The functions that the item's factory collects. -/
def commands : Item → List ItemFn
  | .fn function => if hasAttribute function.attrs "command" then [function] else []
  | .mod attrs _ items => if hasAttribute attrs "group" then commandsOf items else []
  | .external _ _ => []
  | .other _ => []
termination_by structural item => item

def commandsOf : List Item → List ItemFn
  | [] => []
  | item :: rest => commands item ++ commandsOf rest
termination_by structural items => items

end

/-! ## A function -/

theorem parseLimit_pos {expression : Expr} {limit : Nat} (h : parseLimit expression = .ok limit) : limit ≠ 0 := by
  unfold parseLimit at h
  split at h
  · cases h
  · split at h
    · cases h
    · rename_i hpos
      cases h
      exact hpos

theorem takeValue_limit {args next : CommandArgs} {value : Expr} {argument : CommandArgument}
    (h : args.takeValue value argument = .ok next) (hargs : args.maxConcurrency ≠ some 0) :
    next.maxConcurrency ≠ some 0 := by
  cases argument with
  | guildOnly => cases h
  | maxConcurrency =>
    obtain ⟨limit, hlimit, rfl⟩ := map_ok.mp h
    unfold takeOnce at hlimit
    split at hlimit
    · cases hlimit
    · rename_i parsed hparsed
      split at hlimit
      · cases hlimit
      · cases hlimit
        exact fun hzero => parseLimit_pos hparsed (Option.some.inj hzero)
  | _ =>
    obtain ⟨_, -, rfl⟩ := map_ok.mp h
    exact hargs

theorem parse_limit {entries : List (Ident × Option Expr)} : ∀ {args final : CommandArgs},
    CommandArgs.parse args entries = .ok final → args.maxConcurrency ≠ some 0 → final.maxConcurrency ≠ some 0 := by
  induction entries with
  | nil =>
    intro args final h hargs
    cases h
    exact hargs
  | cons entry rest ih =>
    intro args final h hargs
    unfold CommandArgs.parse at h
    split at h
    · cases h
    · rename_i next hnext
      refine ih h ?_
      unfold CommandArgs.take at hnext
      split at hnext
      · split at hnext
        · split at hnext
          · cases hnext
          · cases hnext
            exact hargs
        · cases hnext
      · split at hnext
        · exact takeValue_limit hnext hargs
        · cases hnext

theorem parseCommandArgs_limit {arguments : Arguments} {args : CommandArgs} (h : parseCommandArgs arguments = .ok args) :
    args.maxConcurrency ≠ some 0 := by
  unfold parseCommandArgs at h
  split at h
  · cases h
  · split at h
    · cases h
    · rename_i hparse
      split at h
      · cases h
      · cases h
        exact parse_limit hparse (by simp)

theorem expandCommand_ok {unicode : Unicode} {arguments : Arguments} {function : ItemFn} {expansion : CommandExpansion}
    (h : expandCommand unicode arguments function = .ok expansion) :
    parseCommandArgs arguments = .ok expansion.args ∧
      optionParameters unicode function.inputs = .ok expansion.options := by
  unfold expandCommand at h
  split at h
  · cases h
  · rename_i args hargs
    split at h
    · cases h
    · split at h
      · cases h
      · unfold expandNamed at h
        split at h
        · cases h
        · split at h
          · cases h
          · split at h
            · cases h
            · split at h
              · cases h
              · split at h
                · cases h
                · rename_i hoptions
                  cases h
                  exact ⟨hargs, hoptions⟩

theorem options_names {unicode : Unicode} {Typed : RustType → Prop} {arguments : List FnArg} {options : List OptionParameter}
    (h : List.Forall₂ (Declares unicode Typed) arguments options) :
    options.map (·.name) = (arguments.filterMap FnArg.ident).map Ident.unraw := by
  induction h with
  | nil => rfl
  | @cons argument option arguments options hfirst _ ih =>
    obtain ⟨⟨attrs, rfl, -⟩, ⟨hname, -⟩, -⟩ := hfirst
    simp [FnArg.ident, hname, ih]

theorem options_nodup {unicode : Unicode} {function : ItemFn} {options : List OptionParameter}
    (h : optionParameters unicode function.inputs = .ok options)
    (hdistinct : ((function.inputs.filterMap FnArg.ident).map Ident.unraw).Nodup) : (options.map (·.name)).Nodup := by
  rw [options_names (optionParameters_iff.mp h).declared]
  exact hdistinct.sublist (((List.drop_sublist 1 _).filterMap _).map _)

theorem discord_completes (kind : OptionKind) : kind.discord.completes = kind.choosable := by
  cases kind <;> rfl

/-- An option that declares a handler is of a kind that completes, and has no choices. -/
theorem declared_completes {env : Environment D} (hresolves : env.Resolves) {unicode : Unicode} {Typed : RustType → Prop} {argument : FnArg}
    {option : OptionParameter} (h : Declares unicode Typed argument option) (hauto : option.autocomplete.isSome = true) :
    (optionDescriptor env option).kind.completes = true ∧ (optionDescriptor env option).choices = [] := by
  obtain ⟨attrs, -, -, htyped | ⟨kind, inline, hscalar⟩⟩ := h.parameter
  · -- a bare choice has no handler
    rw [htyped.carried.2.1] at hauto
    cases hauto
  · obtain ⟨hchoosable, rfl⟩ := hscalar.completes hauto
    constructor
    · show (env.kind option.ty).completes = true
      rw [hresolves option.ty kind option.required (optionType_iff.mpr hscalar.type), discord_completes, hchoosable]
    · have hnone : option.choices = .none := by
        cases hc : option.choices <;> have hinline := hc ▸ hscalar.inline <;> cases hinline
        · rfl
        · contradiction
      simp [optionDescriptor, hnone]

section Leaf

variable {env : Environment D} {expansion : CommandExpansion}

theorem handlers_names :
    (expansion.autocompleteHandlers env).map (·.optionName) =
      (expansion.options.filter (·.autocomplete.isSome)).map (·.name) := by
  unfold CommandExpansion.autocompleteHandlers
  induction expansion.options with
  | nil => rfl
  | cons option rest ih => cases ho : option.autocomplete <;> simp [ho, ih]

theorem factory_some (env : Environment D) (hlimit : ∀ limit, expansion.args.maxConcurrency = some limit → limit ≤ maxPermits) :
    ∃ kind, expansion.factory env = some (.leaf (expansion.descriptor env) kind) ∧
      kind.autocomplete = expansion.autocompleteHandlers env ∧
      kind.policy.maxConcurrency = expansion.args.maxConcurrency := by
  have hpolicy : ∃ policy, expansion.args.policy env = some policy ∧
      policy.maxConcurrency = expansion.args.maxConcurrency := by
    refine ⟨_, if_neg ?_, rfl⟩
    rw [Bool.not_eq_true, Option.any_eq_false]
    intro limit hl
    simpa using hlimit limit hl
  obtain ⟨policy, hp, hsame⟩ := hpolicy
  unfold CommandExpansion.factory
  dsimp only
  have hempty : (expansion.autocompleteHandlers env).isEmpty = true → expansion.autocompleteHandlers env = [] :=
    List.isEmpty_iff.mp
  have hplain : expansion.args.hasPolicy = false → expansion.args.maxConcurrency = none := by
    intro h
    simp only [CommandArgs.hasPolicy, Bool.or_eq_false_iff] at h
    simpa using h.2
  split
  · rename_i he hn
    exact ⟨_, rfl, (hempty he).symm, (hplain hn).symm⟩
  · rename_i hn
    exact ⟨_, rfl, rfl, (hplain hn).symm⟩
  · rename_i he _
    rw [hp]
    exact ⟨_, rfl, (hempty he).symm, hsame⟩
  · rw [hp]
    exact ⟨_, rfl, rfl, hsame⟩

/-- An expanded function that compiles is a valid leaf. -/
theorem factory_leaf (hresolves : env.Resolves) {unicode : Unicode} {arguments : Arguments} {function : ItemFn}
    (h : expandCommand unicode arguments function = .ok expansion)
    (hdistinct : ((function.inputs.filterMap FnArg.ident).map Ident.unraw).Nodup)
    (hlimit : ∀ limit, expansion.args.maxConcurrency = some limit → limit ≤ maxPermits) :
    ∃ leaf, expansion.factory env = some leaf ∧ ValidSub leaf := by
  obtain ⟨hargs, hoptions⟩ := expandCommand_ok h
  have hdeclares := (optionParameters_iff.mp hoptions).declared
  have hnodup := options_nodup hoptions hdistinct
  obtain ⟨kind, hfactory, hauto, hmax⟩ := factory_some env hlimit
  refine ⟨_, hfactory, .leaf ⟨?_, ?_, ?_, ?_⟩⟩
  · rw [hmax]
    exact parseCommandArgs_limit hargs
  · rw [hauto, handlers_names]
    exact hnodup.sublist (List.filter_sublist.map _)
  · intro handler hh
    rw [hauto] at hh
    have hname : handler.optionName ∈ (expansion.autocompleteHandlers env).map (·.optionName) :=
      List.mem_map_of_mem hh
    rw [handlers_names] at hname
    obtain ⟨option, ho, hsame⟩ := List.mem_map.mp hname
    obtain ⟨hmem, hsome⟩ := List.mem_filter.mp ho
    refine ⟨optionDescriptor env option, ?_, hsome⟩
    rw [← hsame]
    have hkeys : ((expansion.options.map (optionDescriptor env)).map (·.name)).Nodup := by
      rw [List.map_map]
      exact hnodup
    exact find_key hkeys (List.mem_map_of_mem hmem)
  · intro described hd hcompletes
    obtain ⟨option, hmem, rfl⟩ := List.mem_map.mp hd
    obtain ⟨argument, -, hdeclared⟩ := forall₂_mem_right hdeclares hmem
    obtain ⟨hkind, hchoices⟩ := declared_completes hresolves hdeclared hcompletes
    refine ⟨hkind, hchoices, ?_⟩
    rw [hauto, handlers_names]
    exact List.mem_map.mpr ⟨option, List.mem_filter.mpr ⟨hmem, hcompletes⟩, rfl⟩

end Leaf

/-! ## A nest -/

section Nest

variable {unicode : Unicode} {env : Environment D}

def Build (P : SlashCommand D → Prop) (factories : List (Option (SlashCommand D))) : Prop :=
  ∃ trees : List (SlashCommand D), factories = trees.map some ∧ ∀ tree ∈ trees, P tree

theorem build_nil {P : SlashCommand D → Prop} : Build P [] := ⟨[], rfl, by simp⟩

theorem build_append {P : SlashCommand D → Prop} {a b : List (Option (SlashCommand D))} (ha : Build P a) (hb : Build P b) :
    Build P (a ++ b) := by
  obtain ⟨as, rfl, has⟩ := ha
  obtain ⟨bs, rfl, hbs⟩ := hb
  refine ⟨as ++ bs, List.map_append.symm, fun tree ht => ?_⟩
  rcases List.mem_append.mp ht with ht | ht
  · exact has tree ht
  · exact hbs tree ht

theorem expandItems_build {P : SlashCommand D → Prop} {items : List Item} :
    ∀ {factories : List (Option (SlashCommand D))},
      (∀ item ∈ items, ∀ factories, expandItem unicode env item = .ok factories → Build P factories) →
        expandItems unicode env items = .ok factories → Build P factories := by
  induction items with
  | nil =>
    intro factories _ h
    cases h
    exact build_nil
  | cons item rest ih =>
    intro factories hitems h
    unfold expandItems at h
    split at h
    · cases h
    · rename_i first hfirst
      obtain ⟨others, hothers, rfl⟩ := map_ok.mp h
      exact build_append (hitems item (List.mem_cons_self ..) first hfirst)
        (ih (fun later hl => hitems later (List.mem_cons_of_mem _ hl)) hothers)

theorem expandGroup_ok {arguments : Arguments} {ident : Ident} {items : Option (List Item)} {expansion : GroupExpansion}
    (h : expandGroup unicode arguments ident items = .ok expansion) :
    ∃ body, items = some body ∧ validateNativeHierarchy body = .ok () ∧ childFactories body ≠ [] := by
  unfold expandGroup at h
  split at h
  · cases h
  · split at h
    · cases h
    · split at h
      · cases h
      · split at h
        · cases h
        · split at h
          · cases h
          · rename_i body
            unfold expandBody at h
            split at h
            · cases h
            · rename_i hnative
              split at h
              · cases h
              · rename_i hsome
                exact ⟨body, rfl, hnative, by simpa using hsome⟩

def Item.Unmarked (item : Item) : Prop :=
  findAttribute item.attrs "command" = none ∧ findAttribute item.attrs "group" = none

def Item.body : Item → List Item
  | mod _ _ items => items
  | _ => []

/-- What an item is when its expansion and those of the items in it succeed. -/
inductive ExpandsTo (unicode : Unicode) (env : Environment D) : Item → List (Option (SlashCommand D)) → Prop
  | plain {item : Item} {inner : List (Option (SlashCommand D))} : item.Unmarked →
      expandItems unicode env item.body = .ok inner → ExpandsTo unicode env item []
  | command {function : ItemFn} {attr : Attribute} {expansion : CommandExpansion} :
      findAttribute function.attrs "command" = some attr → findAttribute function.attrs "group" = none →
      expandCommand unicode attr.style.tokens function = .ok expansion →
      ExpandsTo unicode env (.fn function) [expansion.factory env]
  | group {attrs : List Attribute} {attr : Attribute} {ident : Ident} {items : List Item} {expansion : GroupExpansion}
      {factories : List (Option (SlashCommand D))} :
      findAttribute attrs "group" = some attr → findAttribute attrs "command" = none →
      expandGroup unicode attr.style.tokens ident (some items) = .ok expansion →
      expandItems unicode env items = .ok factories →
      ExpandsTo unicode env (.mod attrs ident items) [(allSome factories).map fun children => .group expansion.descriptor children]

theorem expandItem_expandsTo {item : Item} {factories : List (Option (SlashCommand D))} :
    expandItem unicode env item = .ok factories ↔ ExpandsTo unicode env item factories := by
  constructor
  · intro h
    cases item with
    | fn function =>
      unfold expandItem at h
      split at h
      · cases h
      · rename_i hgroup
        split at h
        · rename_i hcommand
          cases h
          exact .plain ⟨hcommand, misplaced_ok.mp hgroup⟩ rfl
        · rename_i attr hcommand
          obtain ⟨expansion, hexpansion, rfl⟩ := map_ok.mp h
          exact .command hcommand (misplaced_ok.mp hgroup) hexpansion
    | mod attrs ident items =>
      unfold expandItem at h
      split at h
      · cases h
      · rename_i hcommand
        split at h
        · rename_i hgroup
          obtain ⟨inner, hinner, rfl⟩ := map_ok.mp h
          exact .plain ⟨misplaced_ok.mp hcommand, hgroup⟩ hinner
        · rename_i attr hgroup
          split at h
          · cases h
          · rename_i expansion hexpansion
            split at h
            · cases h
            · rename_i built hbuilt
              cases h
              exact .group hgroup (misplaced_ok.mp hcommand) hexpansion hbuilt
    | external attrs ident =>
      unfold expandItem at h
      split at h
      · cases h
      · rename_i hcommand
        split at h
        · rename_i hgroup
          cases h
          exact .plain ⟨misplaced_ok.mp hcommand, hgroup⟩ rfl
        · -- a group without a body is refused, whatever its arguments
          obtain ⟨expansion, hexpansion, -⟩ := map_ok.mp h
          obtain ⟨body, hbody, -⟩ := expandGroup_ok hexpansion
          cases hbody
    | other attrs =>
      unfold expandItem at h
      split at h
      · cases h
      · rename_i hcommand
        obtain ⟨_, hgroup, rfl⟩ := map_ok.mp h
        exact .plain ⟨misplaced_ok.mp hcommand, misplaced_ok.mp hgroup⟩ rfl
  · intro h
    cases h with
    | plain hplain hinner =>
      obtain ⟨hcommand, hgroup⟩ := hplain
      cases item <;> simp only [Item.attrs, Item.body] at hcommand hgroup hinner <;>
        simp [expandItem, misplaced, hcommand, hgroup, hinner, Except.map]
    | command hcommand hgroup hexpansion => simp [expandItem, misplaced, hcommand, hgroup, hexpansion, Except.map]
    | group hgroup hcommand hexpansion hbuilt => simp [expandItem, misplaced, hcommand, hgroup, hexpansion, hbuilt]

theorem expandItem_length {item : Item} {factories : List (Option (SlashCommand D))}
    (h : expandItem unicode env item = .ok factories) :
    factories.length = if item.isCommand || item.isGroup then 1 else 0 := by
  cases expandItem_expandsTo.mp h with
  | plain hplain =>
    obtain ⟨hcommand, hgroup⟩ := hplain
    cases item <;> simp_all [Item.isCommand, Item.isGroup, hasAttribute, Item.attrs]
  | command hcommand => simp [Item.isCommand, hasAttribute, hcommand]
  | group hgroup => simp [Item.isGroup, hasAttribute, hgroup]

theorem expandItems_length {items : List Item} : ∀ {factories : List (Option (SlashCommand D))},
    expandItems unicode env items = .ok factories → factories.length = (childFactories items).length := by
  induction items with
  | nil =>
    intro factories h
    cases h
    rfl
  | cons item rest ih =>
    intro factories h
    unfold expandItems at h
    split at h
    · cases h
    · rename_i first hfirst
      obtain ⟨others, hothers, rfl⟩ := map_ok.mp h
      have hf := expandItem_length hfirst
      have ho := ih hothers
      unfold childFactories at ho ⊢
      rw [List.filter_cons, List.length_append, hf, ho]
      split
      · rw [List.length_cons]
        omega
      · omega

theorem native_children {items : List Item} (h : validateNativeHierarchy items = .ok ()) :
    ∀ attrs ident children, .mod attrs ident children ∈ items → hasAttribute attrs "group" = true →
      ∀ child ∈ children, child.isGroup = false := by
  induction items with
  | nil => intro _ _ _ hm; cases hm
  | cons item rest ih =>
    have hrest : validateNativeHierarchy rest = .ok () := by
      unfold validateNativeHierarchy at h
      split at h
      · rename_i heq; cases heq
      · rename_i heq
        cases heq
        split at h
        · cases h
        · exact h
      · rename_i heq
        cases heq
        split at h
        · cases h
        · exact h
      · rename_i heq
        cases heq
        exact h
    intro attrs ident children hm hgroup child hc
    rcases List.mem_cons.mp hm with rfl | hm
    · simp only [validateNativeHierarchy, hgroup, Bool.true_and] at h
      split at h
      · cases h
      · rename_i hnone
        rw [Bool.not_eq_true, List.any_eq_false] at hnone
        simpa using hnone child hc
    · exact ih hrest attrs ident children hm hgroup child hc

theorem expandItem_sub (hresolves : env.Resolves) {item : Item} {factories : List (Option (SlashCommand D))}
    (h : expandItem unicode env item = .ok factories) (hgroup : item.isGroup = false)
    (hcompiles : ∀ function ∈ commands item, Compiles function) : Build ValidSub factories := by
  cases expandItem_expandsTo.mp h with
  | plain => exact build_nil
  | @command function attr expansion hattr _ hexpansion =>
    have hc := hcompiles function (by simp [commands, hasAttribute, hattr])
    obtain ⟨leaf, hleaf, hvalid⟩ := factory_leaf hresolves hexpansion hc.parameters
      (hc.limit attr expansion.args · hattr (expandCommand_ok hexpansion).1)
    exact ⟨[leaf], by rw [hleaf]; rfl, by simpa using hvalid⟩
  | group hattr =>
    simp only [Item.isGroup, hasAttribute, hattr] at hgroup
    cases hgroup

/-- One level of the nest: a group of what its items build. -/
theorem expandItem_group {Child : SlashCommand D → Prop} {attrs : List Attribute} {ident : Ident} {items : List Item}
    {factories : List (Option (SlashCommand D))} (hgroup : hasAttribute attrs "group" = true)
    (h : expandItem unicode env (.mod attrs ident items) = .ok factories)
    (hitems : ∀ item ∈ items, ∀ factories, validateNativeHierarchy items = .ok () →
      expandItem unicode env item = .ok factories → Build Child factories) :
    Build (fun tree => ∃ descriptor children, tree = .group descriptor children ∧ ShapedGroup Child descriptor children)
      factories := by
  cases expandItem_expandsTo.mp h with
  | plain hplain =>
    have hnone : findAttribute attrs "group" = none := hplain.2
    simp only [hasAttribute, hnone] at hgroup
    cases hgroup
  | @group _ attr _ _ expansion built hattr _ hexpansion hbuilt =>
    obtain ⟨_, ⟨⟩, hnative, hsome⟩ := expandGroup_ok hexpansion
    have hlength := expandItems_length hbuilt
    obtain ⟨trees, rfl, htrees⟩ := expandItems_build (fun item hi factories hf => hitems item hi factories hnative hf) hbuilt
    have hnonempty : trees ≠ [] := by
      rintro rfl
      exact hsome (List.length_eq_zero_iff.mp hlength.symm)
    rw [allSome_map_some]
    refine ⟨[.group expansion.descriptor trees], rfl, fun tree ht => ?_⟩
    rw [List.mem_singleton.mp ht]
    exact ⟨_, trees, rfl, rfl, hnonempty, htrees⟩

theorem commands_mem {item : Item} {items : List Item} (hi : item ∈ items) {function : ItemFn}
    (hf : function ∈ commands item) : function ∈ commandsOf items := by
  induction items with
  | nil => cases hi
  | cons first rest ih =>
    rcases List.mem_cons.mp hi with rfl | hi
    · exact List.mem_append_left _ hf
    · exact List.mem_append_right _ (ih hi)

theorem Build.imp {P Q : SlashCommand D → Prop} {factories : List (Option (SlashCommand D))} (h : Build P factories)
    (hpq : ∀ tree, P tree → Q tree) : Build Q factories := by
  obtain ⟨trees, heq, htrees⟩ := h
  exact ⟨trees, heq, fun tree ht => hpq tree (htrees tree ht)⟩

/-- A group is an inline module, or is refused. -/
theorem group_inline {item : Item} {factories : List (Option (SlashCommand D))}
    (h : expandItem unicode env item = .ok factories) (hgroup : item.isGroup = true) :
    ∃ attrs ident items, item = .mod attrs ident items ∧ hasAttribute attrs "group" = true := by
  cases expandItem_expandsTo.mp h with
  | plain hplain =>
    obtain ⟨-, hnone⟩ := hplain
    cases item <;> simp_all [Item.isGroup, hasAttribute, Item.attrs]
  | command => cases hgroup
  | @group attrs _ ident items => exact ⟨attrs, ident, items, rfl, hgroup⟩

/-- A child of an expanded group: a leaf, or a group of leaves. -/
theorem expandItem_child (hresolves : env.Resolves) {items : List Item} (hnative : validateNativeHierarchy items = .ok ())
    (hcompiles : ∀ function ∈ commandsOf items, Compiles function) {item : Item} (hi : item ∈ items)
    {factories : List (Option (SlashCommand D))} (h : expandItem unicode env item = .ok factories) :
    Build ShapedChild factories := by
  have hown : ∀ function ∈ commands item, Compiles function := fun function hf => hcompiles function (commands_mem hi hf)
  cases hgroup : item.isGroup with
  | false => exact (expandItem_sub hresolves h hgroup hown).imp fun _ => .sub
  | true =>
    obtain ⟨attrs, ident, children, rfl, hattr⟩ := group_inline h hgroup
    have hleaves := native_children hnative attrs ident children hi hattr
    have hchildren : ∀ function ∈ commandsOf children, Compiles function := by
      intro function hf
      refine hown function ?_
      simp only [commands, hattr, if_true]
      exact hf
    refine (expandItem_group hattr h fun child hc factories _ hf =>
      expandItem_sub hresolves hf (hleaves child hc) fun function hm => hchildren function (commands_mem hc hm)).imp ?_
    rintro tree ⟨descriptor, trees, rfl, hshaped⟩
    exact .group hshaped

/-- An expanded nest that compiles is a tree of the right shape. -/
theorem expandItem_shaped (hresolves : env.Resolves) {item : Item} {factories : List (Option (SlashCommand D))}
    (h : expandItem unicode env item = .ok factories) (hcompiles : ∀ function ∈ commands item, Compiles function) :
    Build Shaped factories := by
  cases hgroup : item.isGroup with
  | false =>
    refine (expandItem_sub hresolves h hgroup hcompiles).imp fun tree ht => ?_
    cases ht with
    | leaf hvalid => exact .leaf hvalid
  | true =>
    obtain ⟨attrs, ident, items, rfl, hattr⟩ := group_inline h hgroup
    have hitems : ∀ function ∈ commandsOf items, Compiles function := by
      intro function hf
      refine hcompiles function ?_
      simp only [commands, hattr, if_true]
      exact hf
    refine (expandItem_group hattr h fun item hi factories hnative hf => expandItem_child hresolves hnative hitems hi hf).imp ?_
    rintro tree ⟨descriptor, trees, rfl, hshaped⟩
    exact .group hshaped

/-- What the macros expand, the registry accepts, unless two siblings share a name; and a
    function alone always. -/
theorem expansion_accepted (hresolves : env.Resolves) {item : Item} {factories : List (Option (SlashCommand D))}
    (hcollected : (item.isCommand || item.isGroup) = true) (hcompiles : ∀ function ∈ commands item, Compiles function)
    (h : expandItem unicode env item = .ok factories) :
    ∃ tree, factories = [some tree] ∧
      (Unambiguous tree → ((CommandRegistry.new : CommandRegistry D).insert tree).1 = .ok ()) ∧
      (¬ Unambiguous tree →
        ∃ path, ((CommandRegistry.new : CommandRegistry D).insert tree).1 = .error (.duplicateCommandPath path)) ∧
      (item.isCommand = true → ((CommandRegistry.new : CommandRegistry D).insert tree).1 = .ok ()) := by
  have hlength := expandItem_length h
  rw [if_pos hcollected] at hlength
  obtain ⟨trees, rfl, htrees⟩ := expandItem_shaped hresolves h hcompiles
  rw [List.length_map] at hlength
  obtain ⟨tree, rfl⟩ := List.length_eq_one_iff.mp hlength
  have hshaped := htrees tree (List.mem_singleton_self _)
  have haccepted : Unambiguous tree → ((CommandRegistry.new : CommandRegistry D).insert tree).1 = .ok () := fun hu =>
    CommandRegistry.insert_new ((validateHierarchy_iff tree).mpr ((valid_iff_shaped tree).mpr ⟨hshaped, hu⟩))
  refine ⟨tree, rfl, haccepted, fun hambiguous => ?_, fun hcommand => haccepted ?_⟩
  · rcases validateHierarchy_shaped hshaped with hok | ⟨path, herror⟩
    · exact absurd ((valid_iff_shaped tree).mp ((validateHierarchy_iff tree).mp hok)).2 hambiguous
    · exact ⟨path, CommandRegistry.insert_new_error herror⟩
  · -- a function is expanded to a leaf, which has no siblings
    have hgroup : item.isGroup = false := by cases item <;> first | rfl | cases hcommand
    obtain ⟨leaves, heq, hleaves⟩ := expandItem_sub hresolves h hgroup hcompiles
    have hmem : tree ∈ leaves := by
      have : some tree ∈ leaves.map some := heq ▸ List.mem_singleton_self _
      simpa using this
    cases hleaves tree hmem with
    | leaf _ => exact .leaf

end Nest

/-! ## A nest of two commands -/

def resolved : Environment Unit where
  kind ty :=
    match optionType ty with
    | .ok (kind, _) => kind.discord
    | .error _ => .string
  choices _ := []
  permissions _ := 0
  check _ _ state := (.ok true, state)
  autocomplete _ _ state := (.ok [], state)
  handler _ _ state := (.ok (), state)

theorem resolved_resolves : resolved.Resolves := by
  intro ty kind required h
  simp only [resolved, h]

def described (macro_name description : String) : Attribute :=
  ⟨plain macro_name, .list (some [(⟨false, "description"⟩, some (.lit (.str description)))])⟩

def typeNamed (name : String) (arguments : PathArguments) : RustType := .path [.mk ⟨false, name⟩ arguments]

def handlerFn (attr : Attribute) (name : String) (parameters : List FnArg) : ItemFn where
  attrs := [attr]
  ident := ⟨false, name⟩
  isAsync := true
  isConst := false
  isUnsafe := false
  hasAbi := false
  isGeneric := false
  isVariadic := false
  inputs := .typed [] (.ident ⟨false, "ctx"⟩ false) (typeNamed "Context" (.angleBracketed [.type (typeNamed "State" .none)])) ::
    parameters
  output := some (typeNamed "Result" (.angleBracketed [.type (.tuple [])]))

def state : RustType := typeNamed "State" .none

def ban : ItemFn :=
  handlerFn (described "command" "Bans a member") "ban"
    [.typed [⟨plain "description", .nameValue (.lit (.str "Who"))⟩,
        ⟨plain "autocomplete", .nameValue (.path false (plain "members"))⟩]
      (.ident ⟨false, "member"⟩ false) (typeNamed "String" .none)]

def set : ItemFn := handlerFn (described "command" "Sets a value") "set" []

def admin : Item :=
  .mod [described "group" "Administration"] ⟨false, "admin"⟩
    [.fn ban, .mod [described "group" "Configuration"] ⟨false, "config"⟩ [.fn set]]

def adminTree : SlashCommand Unit :=
  .group ⟨"admin", "Administration", []⟩ [
    .leaf ⟨"ban", "Bans a member", [⟨"member", "Who", .string, true, [], true, none, none, none, none⟩]⟩
      { handler := resolved.handler ban, autocomplete := [⟨"member", resolved.autocomplete (plain "members")⟩] },
    .group ⟨"config", "Configuration", []⟩ [.leaf ⟨"set", "Sets a value", []⟩ { handler := resolved.handler set }]]

theorem handlerFn_compiles {name description : String} {parameters : List FnArg}
    (h : (("ctx" :: (parameters.filterMap FnArg.ident).map Ident.unraw)).Nodup) :
    Compiles (handlerFn (described "command" description) name parameters) where
  parameters := h
  limit := by
    intro attr args limit hattr hargs hlimit
    have hattr' : some (described "command" description) = some attr := hattr
    rw [← Option.some.inj hattr'] at hargs
    have hargs' : Except.ok { description := some description } = (Except.ok args : Expansion CommandArgs) := hargs
    rw [← Except.ok.inj hargs'] at hlimit
    cases hlimit

theorem expansion_accepted_admin :
    expandItem ascii resolved admin = .ok [some adminTree] ∧
      ((CommandRegistry.new : CommandRegistry Unit).insert adminTree).1 = .ok () := by
  have hexpand : expandItem ascii resolved admin = .ok [some adminTree] := rfl
  have hcompiles : ∀ function ∈ commands admin, Compiles function := by
    intro function hf
    rcases List.mem_cons.mp (show function ∈ [ban, set] from hf) with rfl | hf
    · exact handlerFn_compiles (by decide)
    · rw [List.mem_singleton.mp hf]
      exact handlerFn_compiles (by decide)
  have hdistinct : Unambiguous adminTree := by
    refine .group (by decide) fun child hc => ?_
    rcases List.mem_cons.mp hc with rfl | hc
    · exact .leaf
    · rw [List.mem_singleton.mp hc]
      refine .group (by decide) fun child hc => ?_
      rw [List.mem_singleton.mp hc]
      exact .leaf
  obtain ⟨tree, heq, haccepted, -⟩ := expansion_accepted resolved_resolves rfl hcompiles hexpand
  cases heq
  exact ⟨hexpand, haccepted hdistinct⟩

end GloamCommands.Macros
