/-
  GloamCommands.Core.Registry — the command registry and the hierarchy it accepts
  (crates/gloam-commands/src/registry.rs).

  `validateHierarchy`, `validateChildren` and `validateLeaf` run the source's checks in
  the source's order, with its error paths. A `CommandRegistry` carries what `insert`
  checked: every command sits under its own name and passed `validateHierarchy`.

  What the checks mean is said apart, in `Valid`: a valid leaf, or a group of valid
  leaves and of groups of valid leaves, siblings with distinct names.
  - `validateHierarchy_iff`: the checks accept exactly the valid trees.
  - `validateHierarchy_shaped`: a tree of the right shape is refused for a duplicate only.
  - `insert_error_unchanged`: a refused command leaves the registry as it was.
  - `insertCalls_get`: after any sequence of calls a name holds its first valid command.
-/

import GloamCommands.Core.Command
import GloamCommands.Lib.Keyed
import Std.Data.TreeMap.Lemmas

namespace GloamCommands

open Lib (Fresh fresh_nil fresh_cons fresh_unseen increasing_nodup)

variable {D : Type}

/-! ## The checks -/

def formatPath (parent : List String) (child : String) : String :=
  let path := " ".intercalate parent
  (if path.isEmpty then path else path ++ " ") ++ child

def ApplicationCommandOptionType.completes (kind : ApplicationCommandOptionType) : Bool :=
  kind == .string || kind == .integer || kind == .number

/-- The first loop of `validate_leaf`: the handler names it collects. -/
def validateHandlers (path : String) (options : List CommandOptionDescriptor) (handlerNames : List String) :
    List (AutocompleteHandlerDescriptor D) → Except Error (List String)
  | [] => .ok handlerNames
  | handler :: rest =>
    let name := handler.optionName
    let refused := Except.error (.invalidAutocompleteConfiguration (path ++ " " ++ name))
    if handlerNames.contains name then refused
    else
      match options.find? (·.name == name) with
      | none => refused
      | some option =>
        if !option.autocomplete then refused
        else validateHandlers path options (name :: handlerNames) rest

/-- An autocomplete option the second loop of `validate_leaf` refuses. -/
def misconfigured (handlerNames : List String) (option : CommandOptionDescriptor) : Bool :=
  !option.kind.completes || !option.choices.isEmpty || !handlerNames.contains option.name

def validateLeaf (command : SlashCommand D) (path : String) : Except Error Unit :=
  -- only leaves get here, and a leaf always carries a policy
  if command.policy.bind (·.maxConcurrency) = some 0 then .error (.invalidCommandPolicy path)
  else
    match validateHandlers path command.descriptor.options [] command.autocompleteHandlers with
    | .error error => .error error
    | .ok handlerNames =>
      match (command.descriptor.options.filter (·.autocomplete)).find? (misconfigured handlerNames) with
      | some option => .error (.invalidAutocompleteConfiguration (path ++ " " ++ option.name))
      | none => .ok ()

mutual

/-- The body of the loop in `validate_children`, for one child. -/
def validateChild (parentPath : List String) (depth : Nat) (names : List String) :
    SlashCommand D → Except Error Unit
  | .leaf descriptor kind =>
    let path := formatPath parentPath descriptor.name
    if names.contains descriptor.name then .error (.duplicateCommandPath path)
    else validateLeaf (.leaf descriptor kind) path
  | .group descriptor children =>
    let path := formatPath parentPath descriptor.name
    if names.contains descriptor.name then .error (.duplicateCommandPath path)
    else if decide (depth ≥ 2) || !descriptor.options.isEmpty || children.isEmpty then
      .error (.invalidCommandHierarchy path)
    else if children.any (·.isGroup) then .error (.invalidCommandHierarchy path)
    else validateChildren (parentPath ++ [descriptor.name]) (depth + 1) [] children
termination_by structural child => child

def validateChildren (parentPath : List String) (depth : Nat) (names : List String) :
    List (SlashCommand D) → Except Error Unit
  | [] => .ok ()
  | child :: rest =>
    match validateChild parentPath depth names child with
    | .error error => .error error
    | .ok () => validateChildren parentPath depth (child.descriptor.name :: names) rest
termination_by structural children => children

end

def validateHierarchy (command : SlashCommand D) : Except Error Unit :=
  let root := command.descriptor.name
  if command.isLeaf then validateLeaf command root
  else if !command.descriptor.options.isEmpty || command.children.isEmpty then
    .error (.invalidCommandHierarchy root)
  else validateChildren [root] 1 [] command.children

/-! ## The registry -/

/-- The source's `BTreeMap` with what `insert` keeps true of it. -/
structure CommandRegistry (D : Type) where
  commands : Std.TreeMap String (SlashCommand D)
  keyed : ∀ {name : String} {command : SlashCommand D}, commands[name]? = some command → command.descriptor.name = name
  accepted : ∀ {name : String} {command : SlashCommand D}, commands[name]? = some command → validateHierarchy command = .ok ()

namespace CommandRegistry

def new : CommandRegistry D := ⟨∅, by simp, by simp⟩

def insert (registry : CommandRegistry D) (command : SlashCommand D) : Except Error Unit × CommandRegistry D :=
  match h : validateHierarchy command with
  | .error error => (.error error, registry)
  | .ok () =>
    let name := command.descriptor.name
    if registry.commands.contains name then (.error (.duplicateCommand name), registry)
    else
      (.ok (), {
        commands := registry.commands.insert name command
        keyed := by
          intro n c hc
          rw [Std.TreeMap.getElem?_insert] at hc
          split at hc
          · rename_i he
            rw [← Option.some.inj hc]
            exact Std.LawfulEqCmp.eq_of_compare he
          · exact registry.keyed hc
        accepted := by
          intro n c hc
          rw [Std.TreeMap.getElem?_insert] at hc
          split at hc
          · rw [← Option.some.inj hc]; exact h
          · exact registry.accepted hc })

def get (registry : CommandRegistry D) (name : String) : Option (SlashCommand D) := registry.commands[name]?

def len (registry : CommandRegistry D) : Nat := registry.commands.size

def iter (registry : CommandRegistry D) : List (SlashCommand D) := registry.commands.toList.map (·.2)

theorem insert_error_unchanged (registry : CommandRegistry D) (command : SlashCommand D) {error : Error}
    (h : (registry.insert command).1 = .error error) : (registry.insert command).2 = registry := by
  unfold insert at h ⊢
  split at h
  · rfl
  · dsimp only at h ⊢
    split at h
    · rename_i hc; rw [if_pos hc]
    · cases h

theorem insert_new {command : SlashCommand D} (h : validateHierarchy command = .ok ()) :
    ((new : CommandRegistry D).insert command).1 = .ok () := by
  unfold insert
  split
  · rename_i he
    rw [h] at he
    cases he
  · dsimp only
    rw [if_neg]
    show ¬ (∅ : Std.TreeMap String (SlashCommand D)).contains command.descriptor.name = true
    simp

theorem insert_new_error {command : SlashCommand D} {error : Error} (h : validateHierarchy command = .error error) :
    ((new : CommandRegistry D).insert command).1 = .error error := by
  unfold insert
  split
  · rename_i he
    rw [h] at he
    cases he
    rfl
  · rename_i he
    rw [h] at he
    cases he

theorem mem_iter {registry : CommandRegistry D} {command : SlashCommand D} :
    command ∈ registry.iter ↔ registry.get command.descriptor.name = some command := by
  unfold iter get
  constructor
  · intro h
    obtain ⟨⟨name, c⟩, hm, rfl⟩ := List.mem_map.mp h
    have hc := Std.TreeMap.mem_toList_iff_getElem?_eq_some.mp hm
    rw [registry.keyed hc]
    exact hc
  · intro h
    exact List.mem_map.mpr ⟨(command.descriptor.name, command),
      Std.TreeMap.mem_toList_iff_getElem?_eq_some.mpr h, rfl⟩

theorem iter_names (registry : CommandRegistry D) :
    registry.iter.map (·.descriptor.name) = registry.commands.toList.map (·.1) := by
  unfold iter
  rw [List.map_map]
  apply List.map_congr_left
  intro x hx
  exact registry.keyed (Std.TreeMap.mem_toList_iff_getElem?_eq_some.mp hx)

theorem iter_sorted (registry : CommandRegistry D) :
    registry.iter.Pairwise fun a b => a.descriptor.name < b.descriptor.name := by
  have hkeys : (registry.commands.toList.map (·.1)).Pairwise (· < ·) := by
    rw [List.pairwise_map]
    exact registry.commands.ordered_keys_toList.imp compareOfLessAndEq_eq_lt.mp
  rw [← iter_names, List.pairwise_map] at hkeys
  exact hkeys

theorem iter_nodup (registry : CommandRegistry D) : (registry.iter.map (·.descriptor.name)).Nodup :=
  increasing_nodup registry.iter_sorted

end CommandRegistry

/-! ## What the checks accept -/

/-- What a registered leaf promises: a usable limit, distinct handlers, a handler for
    every autocomplete option and an autocomplete option for every handler. -/
structure ValidLeaf (descriptor : CommandDescriptor) (kind : SlashCommandLeaf D) : Prop where
  limit : kind.policy.maxConcurrency ≠ some 0
  distinct : (kind.autocomplete.map (·.optionName)).Nodup
  enabled : ∀ handler ∈ kind.autocomplete, ∃ option,
    descriptor.options.find? (·.name == handler.optionName) = some option ∧ option.autocomplete = true
  served : ∀ option ∈ descriptor.options, option.autocomplete = true →
    option.kind.completes = true ∧ option.choices = [] ∧ option.name ∈ kind.autocomplete.map (·.optionName)

def names (children : List (SlashCommand D)) : List String := children.map (·.descriptor.name)

/-- A group of valid children: `Child` says which children it may hold. -/
structure ValidGroup (Child : SlashCommand D → Prop) (descriptor : CommandDescriptor)
    (children : List (SlashCommand D)) : Prop where
  noOptions : descriptor.options = []
  nonempty : children ≠ []
  distinct : (names children).Nodup
  children : ∀ child ∈ children, Child child

inductive ValidSub : SlashCommand D → Prop where
  | leaf {descriptor : CommandDescriptor} {kind : SlashCommandLeaf D} : ValidLeaf descriptor kind →
      ValidSub (.leaf descriptor kind)

inductive ValidChild : SlashCommand D → Prop where
  | sub {child : SlashCommand D} : ValidSub child → ValidChild child
  | group {descriptor : CommandDescriptor} {children : List (SlashCommand D)} :
      ValidGroup ValidSub descriptor children → ValidChild (.group descriptor children)

/-- A Discord-native tree. -/
inductive Valid : SlashCommand D → Prop where
  | leaf {descriptor : CommandDescriptor} {kind : SlashCommandLeaf D} : ValidLeaf descriptor kind →
      Valid (.leaf descriptor kind)
  | group {descriptor : CommandDescriptor} {children : List (SlashCommand D)} :
      ValidGroup ValidChild descriptor children → Valid (.group descriptor children)

/-- The names `validate_leaf` collects are the handlers' names, if they are distinct and
    each is the name of an option that completes. -/
theorem validateHandlers_iff (path : String) (options : List CommandOptionDescriptor)
    (handlers : List (AutocompleteHandlerDescriptor D)) (seen collected : List String) :
    validateHandlers path options seen handlers = .ok collected ↔
      collected = (handlers.map (·.optionName)).reverse ++ seen ∧ Fresh (·.optionName) seen handlers ∧
        ∀ handler ∈ handlers, ∃ option,
          options.find? (·.name == handler.optionName) = some option ∧ option.autocomplete = true := by
  induction handlers generalizing seen with
  | nil =>
    simp only [validateHandlers, Except.ok.injEq, List.map_nil, List.reverse_nil, List.nil_append]
    constructor
    · rintro rfl
      exact ⟨rfl, fresh_nil _ _, by simp⟩
    · rintro ⟨rfl, -⟩
      rfl
  | cons handler rest ih =>
    simp only [validateHandlers, fresh_cons]
    by_cases hseen : handler.optionName ∈ seen
    · simp [hseen]
    rw [if_neg (by simpa using hseen)]
    cases hfind : options.find? (·.name == handler.optionName) with
    | none => simp [hfind]
    | some option =>
      by_cases hauto : option.autocomplete = true
      · simp only [hauto, Bool.not_true, Bool.false_eq_true, if_false, ih]
        simp only [List.map_cons, List.reverse_cons, List.append_assoc, List.singleton_append, List.forall_mem_cons]
        constructor
        · rintro ⟨rfl, hfresh, hen⟩
          exact ⟨rfl, ⟨hseen, hfresh⟩, ⟨option, hfind, hauto⟩, hen⟩
        · rintro ⟨rfl, ⟨-, hfresh⟩, -, hen⟩
          exact ⟨rfl, hfresh, hen⟩
      · simp [hauto, hfind]

theorem validateLeaf_iff (descriptor : CommandDescriptor) (kind : SlashCommandLeaf D) (path : String) :
    validateLeaf (.leaf descriptor kind) path = .ok () ↔ ValidLeaf descriptor kind := by
  have hbad : ∀ seen : List String,
      (descriptor.options.filter (·.autocomplete)).find? (misconfigured seen) = none ↔
        ∀ option ∈ descriptor.options, option.autocomplete = true →
          option.kind.completes = true ∧ option.choices = [] ∧ option.name ∈ seen := by
    intro seen
    simp [misconfigured, and_assoc]
  unfold validateLeaf
  by_cases hlimit : kind.policy.maxConcurrency = some 0
  · rw [if_pos (show ((SlashCommand.leaf descriptor kind).policy.bind (·.maxConcurrency)) = some 0 from hlimit)]
    exact ⟨fun h => (by cases h), fun h => absurd hlimit h.limit⟩
  rw [if_neg (show ¬ ((SlashCommand.leaf descriptor kind).policy.bind (·.maxConcurrency)) = some 0 from hlimit)]
  simp only [SlashCommand.descriptor_leaf, SlashCommand.autocompleteHandlers_leaf]
  cases hh : validateHandlers path descriptor.options [] kind.autocomplete with
  | error e =>
    refine ⟨fun h => (by cases h), fun h => ?_⟩
    have hok := (validateHandlers_iff path descriptor.options kind.autocomplete [] _).mpr
      ⟨rfl, fresh_unseen.mpr h.distinct, h.enabled⟩
    rw [hh] at hok
    cases hok
  | ok collected =>
    obtain ⟨rfl, hfresh, hen⟩ := (validateHandlers_iff path descriptor.options kind.autocomplete [] _).mp hh
    simp only [List.append_nil]
    cases hf : (descriptor.options.filter (·.autocomplete)).find?
        (misconfigured (kind.autocomplete.map (·.optionName)).reverse) with
    | none =>
      refine ⟨fun _ => ⟨hlimit, fresh_unseen.mp hfresh, hen, ?_⟩, fun _ => rfl⟩
      simpa using (hbad _).mp hf
    | some option =>
      refine ⟨fun h => (by cases h), fun h => ?_⟩
      rw [(hbad _).mpr (by simpa using h.served)] at hf
      cases hf

/-- A sibling's name only matters to the duplicate check. -/
theorem validateChild_seen (parentPath : List String) (depth : Nat) (seen : List String) (child : SlashCommand D) :
    validateChild parentPath depth seen child = .ok () ↔
      child.descriptor.name ∉ seen ∧ validateChild parentPath depth [] child = .ok () := by
  cases child with
  | leaf descriptor kind =>
    by_cases h : descriptor.name ∈ seen <;> simp [validateChild, h]
  | group descriptor children =>
    by_cases h : descriptor.name ∈ seen <;> simp [validateChild, h]

theorem validateChildren_iff (parentPath : List String) (depth : Nat) (seen : List String)
    (children : List (SlashCommand D)) :
    validateChildren parentPath depth seen children = .ok () ↔
      Fresh (·.descriptor.name) seen children ∧ ∀ child ∈ children, validateChild parentPath depth [] child = .ok () := by
  induction children generalizing seen with
  | nil =>
    simp only [validateChildren, true_iff]
    exact ⟨fresh_nil _ _, by simp⟩
  | cons child rest ih =>
    have hstep : validateChildren parentPath depth seen (child :: rest) = .ok () ↔
        validateChild parentPath depth seen child = .ok () ∧
          validateChildren parentPath depth (child.descriptor.name :: seen) rest = .ok () := by
      simp only [validateChildren]
      cases validateChild parentPath depth seen child with
      | error e => exact ⟨fun h => (by cases h), fun h => (by cases h.1)⟩
      | ok u => exact ⟨fun h => ⟨rfl, h⟩, fun h => h.2⟩
    rw [hstep, validateChild_seen, ih, fresh_cons, List.forall_mem_cons]
    constructor
    · rintro ⟨⟨hs, hc⟩, hfresh, hrest⟩
      exact ⟨⟨hs, hfresh⟩, hc, hrest⟩
    · rintro ⟨⟨hs, hfresh⟩, hc, hrest⟩
      exact ⟨⟨hs, hc⟩, hfresh, hrest⟩

theorem validateChild_leaf (parentPath : List String) (depth : Nat) (descriptor : CommandDescriptor)
    (kind : SlashCommandLeaf D) :
    validateChild parentPath depth [] (.leaf descriptor kind) = .ok () ↔ ValidLeaf descriptor kind := by
  simp only [validateChild, List.contains_nil, Bool.false_eq_true, if_false]
  exact validateLeaf_iff descriptor kind _

theorem validateChild_deep (parentPath : List String) {depth : Nat} (hd : 2 ≤ depth) (child : SlashCommand D) :
    validateChild parentPath depth [] child = .ok () ↔ ValidSub child := by
  cases child with
  | leaf descriptor kind =>
    rw [validateChild_leaf]
    exact ⟨.leaf, fun h => by cases h; assumption⟩
  | group descriptor children =>
    simp only [validateChild, List.contains_nil, Bool.false_eq_true, if_false, ge_iff_le, hd, decide_true,
      Bool.true_or, if_true]
    exact ⟨fun h => (by cases h), fun h => (by cases h)⟩

theorem validateChild_iff (parentPath : List String) (child : SlashCommand D) :
    validateChild parentPath 1 [] child = .ok () ↔ ValidChild child := by
  cases child with
  | leaf descriptor kind =>
    rw [validateChild_leaf]
    exact ⟨fun h => .sub (.leaf h), fun h => by cases h with | sub h => cases h; assumption⟩
  | group descriptor children =>
    have hgroups : ValidGroup ValidSub descriptor children → children.any (·.isGroup) = false := by
      intro h
      rw [List.any_eq_false]
      intro c hc
      cases h.children c hc
      simp
    simp only [validateChild, List.contains_nil, Bool.false_eq_true, if_false]
    by_cases hshape : descriptor.options = [] ∧ children ≠ []
    · obtain ⟨ho, hc⟩ := hshape
      simp only [ho, List.isEmpty_nil, Bool.not_true, Bool.or_false, show (decide (1 ≥ 2)) = false from rfl,
        Bool.false_or, List.isEmpty_iff, hc, if_false]
      have hrec := validateChildren_iff (parentPath ++ [descriptor.name]) (1 + 1) [] children
      simp only [validateChild_deep _ (Nat.le_refl 2)] at hrec
      by_cases hg : children.any (·.isGroup) = true
      · rw [if_pos hg]
        refine ⟨fun h => (by cases h), fun h => ?_⟩
        cases h with
        | sub h => cases h
        | group h => rw [hgroups h] at hg; cases hg
      · rw [if_neg hg, hrec]
        constructor
        · rintro ⟨hfresh, hch⟩
          exact .group ⟨ho, hc, fresh_unseen.mp hfresh, hch⟩
        · intro h
          cases h with
          | sub h => cases h
          | group h => exact ⟨fresh_unseen.mpr h.distinct, h.children⟩
    · rw [if_pos (by simp; tauto)]
      refine ⟨fun h => (by cases h), fun h => ?_⟩
      cases h with
      | sub h => cases h
      | group h => exact absurd ⟨h.noOptions, h.nonempty⟩ hshape

/-- The registry's checks accept exactly the Discord-native trees. -/
theorem validateHierarchy_iff (command : SlashCommand D) : validateHierarchy command = .ok () ↔ Valid command := by
  cases command with
  | leaf descriptor kind =>
    show validateLeaf (.leaf descriptor kind) descriptor.name = .ok () ↔ _
    rw [validateLeaf_iff]
    exact ⟨.leaf, fun h => by cases h; assumption⟩
  | group descriptor children =>
    show (if (!descriptor.options.isEmpty || children.isEmpty) = true then
      .error (.invalidCommandHierarchy descriptor.name)
      else validateChildren [descriptor.name] 1 [] children) = .ok () ↔ _
    by_cases hshape : descriptor.options = [] ∧ children ≠ []
    · obtain ⟨ho, hc⟩ := hshape
      have hrec := validateChildren_iff [descriptor.name] 1 [] children
      simp only [validateChild_iff] at hrec
      simp only [ho, List.isEmpty_nil, Bool.not_true, Bool.false_or, List.isEmpty_iff, hc, if_false, hrec]
      constructor
      · rintro ⟨hfresh, hch⟩
        exact .group ⟨ho, hc, fresh_unseen.mp hfresh, hch⟩
      · intro h
        cases h with
        | group h => exact ⟨fresh_unseen.mpr h.distinct, h.children⟩
    · rw [if_pos (by simp; tauto)]
      refine ⟨fun h => (by cases h), fun h => ?_⟩
      cases h with
      | group h => exact absurd ⟨h.noOptions, h.nonempty⟩ hshape

/-! ## Trees of the right shape -/

/-- A group of the right shape, whatever its children are called. -/
structure ShapedGroup (Child : SlashCommand D → Prop) (descriptor : CommandDescriptor)
    (children : List (SlashCommand D)) : Prop where
  noOptions : descriptor.options = []
  nonempty : children ≠ []
  children : ∀ child ∈ children, Child child

inductive ShapedChild : SlashCommand D → Prop where
  | sub {child : SlashCommand D} : ValidSub child → ShapedChild child
  | group {descriptor : CommandDescriptor} {children : List (SlashCommand D)} :
      ShapedGroup ValidSub descriptor children → ShapedChild (.group descriptor children)

inductive Shaped : SlashCommand D → Prop where
  | leaf {descriptor : CommandDescriptor} {kind : SlashCommandLeaf D} : ValidLeaf descriptor kind →
      Shaped (.leaf descriptor kind)
  | group {descriptor : CommandDescriptor} {children : List (SlashCommand D)} :
      ShapedGroup ShapedChild descriptor children → Shaped (.group descriptor children)

inductive Unambiguous : SlashCommand D → Prop where
  | leaf {descriptor : CommandDescriptor} {kind : SlashCommandLeaf D} : Unambiguous (.leaf descriptor kind)
  | group {descriptor : CommandDescriptor} {children : List (SlashCommand D)} : (names children).Nodup →
      (∀ child ∈ children, Unambiguous child) → Unambiguous (.group descriptor children)

def OnlyDuplicates (result : Except Error Unit) : Prop :=
  result = .ok () ∨ ∃ path, result = .error (.duplicateCommandPath path)

theorem validateChild_sub {child : SlashCommand D} (h : ValidSub child) (parentPath : List String) (depth : Nat)
    (seen : List String) : OnlyDuplicates (validateChild parentPath depth seen child) := by
  cases h with
  | @leaf descriptor kind hleaf =>
    simp only [validateChild]
    by_cases hs : seen.contains descriptor.name = true
    · rw [if_pos hs]
      exact .inr ⟨_, rfl⟩
    · rw [if_neg hs]
      exact .inl ((validateLeaf_iff descriptor kind _).mpr hleaf)

theorem validateChildren_duplicates {parentPath : List String} {depth : Nat} {children : List (SlashCommand D)}
    (h : ∀ child ∈ children, ∀ seen, OnlyDuplicates (validateChild parentPath depth seen child)) :
    ∀ seen, OnlyDuplicates (validateChildren parentPath depth seen children) := by
  induction children with
  | nil => exact fun _ => .inl rfl
  | cons child rest ih =>
    intro seen
    simp only [validateChildren]
    rcases h child (List.mem_cons_self ..) seen with hok | ⟨path, herror⟩
    · rw [hok]
      exact ih (fun other ho => h other (List.mem_cons_of_mem _ ho)) _
    · rw [herror]
      exact .inr ⟨path, rfl⟩

theorem validateChild_shaped {child : SlashCommand D} (h : ShapedChild child) (parentPath : List String)
    (seen : List String) : OnlyDuplicates (validateChild parentPath 1 seen child) := by
  cases h with
  | sub h => exact validateChild_sub h parentPath 1 seen
  | @group descriptor children h =>
    have hleaves : children.any (·.isGroup) = false := by
      rw [List.any_eq_false]
      intro child hc
      cases h.children child hc
      simp
    simp only [validateChild]
    by_cases hs : seen.contains descriptor.name = true
    · rw [if_pos hs]
      exact .inr ⟨_, rfl⟩
    · rw [if_neg hs, h.noOptions, if_neg (by simpa using h.nonempty), hleaves, if_neg (by simp)]
      exact validateChildren_duplicates (fun child hc seen => validateChild_sub (h.children child hc) _ _ seen) []

theorem validateHierarchy_shaped {command : SlashCommand D} (h : Shaped command) :
    OnlyDuplicates (validateHierarchy command) := by
  cases h with
  | @leaf descriptor kind h => exact .inl ((validateLeaf_iff descriptor kind _).mpr h)
  | @group descriptor children h =>
    show OnlyDuplicates (if (!descriptor.options.isEmpty || children.isEmpty) = true then
      .error (.invalidCommandHierarchy descriptor.name)
      else validateChildren [descriptor.name] 1 [] children)
    rw [h.noOptions, if_neg (by simpa using h.nonempty)]
    exact validateChildren_duplicates (fun child hc seen => validateChild_shaped (h.children child hc) _ seen) []

/-- And not at all when its siblings' names are distinct. -/
theorem valid_iff_shaped (command : SlashCommand D) : Valid command ↔ Shaped command ∧ Unambiguous command := by
  have hsub : ∀ {child : SlashCommand D}, ValidSub child → Unambiguous child := by
    intro child h
    cases h
    exact .leaf
  have hchild : ∀ {child : SlashCommand D}, ValidChild child ↔ ShapedChild child ∧ Unambiguous child := by
    intro child
    constructor
    · intro h
      cases h with
      | sub h => exact ⟨.sub h, hsub h⟩
      | group h => exact ⟨.group ⟨h.noOptions, h.nonempty, h.children⟩, .group h.distinct fun c hc => hsub (h.children c hc)⟩
    · rintro ⟨h, hu⟩
      cases h with
      | sub h => exact .sub h
      | group h =>
        cases hu with
        | group hd _ => exact .group ⟨h.noOptions, h.nonempty, hd, h.children⟩
  constructor
  · intro h
    cases h with
    | leaf h => exact ⟨.leaf h, .leaf⟩
    | group h =>
      exact ⟨.group ⟨h.noOptions, h.nonempty, fun c hc => (hchild.mp (h.children c hc)).1⟩,
        .group h.distinct fun c hc => (hchild.mp (h.children c hc)).2⟩
  · rintro ⟨h, hu⟩
    cases h with
    | leaf h => exact .leaf h
    | group h =>
      cases hu with
      | group hd hc => exact .group ⟨h.noOptions, h.nonempty, hd, fun c hm => hchild.mpr ⟨h.children c hm, hc c hm⟩⟩

theorem CommandRegistry.valid {registry : CommandRegistry D} {name : String} {command : SlashCommand D}
    (h : registry.get name = some command) : Valid command :=
  (validateHierarchy_iff command).mp (registry.accepted h)

/-! ## A sequence of registrations -/

namespace CommandRegistry

def accepts (command : SlashCommand D) : Bool := (validateHierarchy command).toBool

theorem accepts_iff (command : SlashCommand D) : accepts command = true ↔ Valid command := by
  rw [← validateHierarchy_iff]
  unfold accepts
  cases validateHierarchy command with
  | error e => exact ⟨fun h => (by cases h), fun h => (by cases h)⟩
  | ok u => exact ⟨fun _ => rfl, fun _ => rfl⟩

/-- What one `insert` does: a valid command under a free name is added, and nothing else
    changes. -/
theorem insert_spec (registry : CommandRegistry D) (command : SlashCommand D) :
    ((registry.insert command).1 = .ok () ↔
      registry.get command.descriptor.name = none ∧ accepts command = true) ∧
    ∀ name, (registry.insert command).2.get name =
      (registry.get name).or (if command.descriptor.name == name && accepts command then some command else none) := by
  have hget : registry.commands.contains command.descriptor.name = (registry.get command.descriptor.name).isSome :=
    Std.TreeMap.contains_eq_isSome_getElem?
  unfold insert accepts
  split
  · rename_i e he
    simp [he, Except.toBool]
  rename_i he
  simp only [he, Except.toBool, Bool.and_true, and_true]
  by_cases hc : registry.commands.contains command.descriptor.name = true
  · rw [if_pos hc]
    rw [hget, Option.isSome_iff_exists] at hc
    obtain ⟨kept, hk⟩ := hc
    refine ⟨by simp [hk], fun name => ?_⟩
    by_cases hn : command.descriptor.name = name
    · subst hn
      simp [hk]
    · simp [hn]
  · rw [if_neg hc]
    rw [hget, Bool.not_eq_true, Option.isSome_eq_false_iff, Option.isNone_iff_eq_none] at hc
    refine ⟨by simp [hc], fun name => ?_⟩
    show (registry.commands.insert command.descriptor.name command)[name]? = _
    rw [Std.TreeMap.getElem?_insert]
    by_cases hn : command.descriptor.name = name
    · subst hn
      simp [hc]
    · have hne : compare command.descriptor.name name ≠ .eq := fun h => hn (Std.LawfulEqCmp.eq_of_compare h)
      simp only [hne, if_false, beq_iff_eq, hn, Option.or_none]
      rfl

def insertCalls (registry : CommandRegistry D) (calls : List (SlashCommand D)) : CommandRegistry D :=
  calls.foldl (fun registry command => (registry.insert command).2) registry

/-- The first valid command of a name is kept, whatever is inserted after it. -/
theorem insertCalls_get (registry : CommandRegistry D) (calls : List (SlashCommand D)) (name : String) :
    (registry.insertCalls calls).get name =
      (registry.get name).or (calls.find? fun c => c.descriptor.name == name && accepts c) := by
  induction calls generalizing registry with
  | nil => simp [insertCalls]
  | cons command rest ih =>
    have hrest := ih (registry.insert command).2
    rw [(insert_spec registry command).2, Option.or_assoc] at hrest
    rw [insertCalls, List.foldl_cons]
    refine hrest.trans ?_
    rw [List.find?_cons]
    by_cases hc : (command.descriptor.name == name && accepts command) = true
    · simp [hc]
    · simp [Bool.eq_false_iff.mpr hc]

/-- After any sequence of calls, `insert` accepts exactly the Discord-native trees whose
    name no earlier valid command took, and a refusal changes nothing. -/
theorem insert_after_calls (calls : List (SlashCommand D)) (command : SlashCommand D) :
    (((new.insertCalls calls).insert command).1 = .ok () ↔
      (new.insertCalls calls).get command.descriptor.name = none ∧ Valid command) ∧
    ((new.insertCalls calls).get command.descriptor.name = none ↔
      ∀ earlier ∈ calls, earlier.descriptor.name = command.descriptor.name → ¬ Valid earlier) ∧
    (∀ error, ((new.insertCalls calls).insert command).1 = .error error →
      ((new.insertCalls calls).insert command).2 = new.insertCalls calls) ∧
    (∀ name held, (new.insertCalls calls).get name = some held → held ∈ calls ∧ held.descriptor.name = name ∧ Valid held) ∧
    ((new.insertCalls calls).iter.map (·.descriptor.name)).Nodup := by
  refine ⟨?_, ?_, fun error => insert_error_unchanged _ command, fun name held hheld => ?_, iter_nodup _⟩
  · rw [(insert_spec _ command).1, accepts_iff]
  · rw [insertCalls_get, show (new : CommandRegistry D).get command.descriptor.name = none from rfl, Option.none_or,
      List.find?_eq_none]
    simp [accepts_iff]
  · refine ⟨?_, keyed _ hheld, valid hheld⟩
    rw [insertCalls_get, show (new : CommandRegistry D).get name = none from rfl, Option.none_or] at hheld
    exact List.mem_of_find?_eq_some hheld

end CommandRegistry

end GloamCommands
