/-
  GloamCommands.Core.Agreement — the published schema and the resolver describe one tree.

  Three traversals see a registered tree: `validateHierarchy` when it is inserted,
  `createCommands` when it is published, `resolveCommand` when it is invoked. Here they
  are compared on `leaves`, the tree's own leaves by path.
  - `path_selects`: following a path of the payload selects a leaf of the tree, and the
    path's scalar options are that leaf's.
  - `schema_and_dispatch_agree`: every path of the payload is routed to the leaf it was
    made from, and the payload's paths are the registry's leaves, in order, each once.
-/

import GloamCommands.Core.Registration
import GloamCommands.Core.Resolve
import Mathlib.Data.List.Forall2

namespace GloamCommands

variable {D : Type}

/-! ## The leaves of a tree -/

mutual

def leaves : SlashCommand D → List (List String × SlashCommand D)
  | .leaf descriptor kind => [([descriptor.name], .leaf descriptor kind)]
  | .group descriptor children => (childLeaves children).map fun x => (descriptor.name :: x.1, x.2)
termination_by structural command => command

def childLeaves : List (SlashCommand D) → List (List String × SlashCommand D)
  | [] => []
  | child :: rest => leaves child ++ childLeaves rest
termination_by structural children => children

end

def CommandRegistry.leaves (registry : CommandRegistry D) : List (List String × SlashCommand D) :=
  registry.iter.flatMap GloamCommands.leaves

theorem childLeaves_eq (children : List (SlashCommand D)) : childLeaves children = children.flatMap leaves := by
  induction children with
  | nil => rfl
  | cons child rest ih => rw [childLeaves, ih, List.flatMap_cons]

theorem leaves_group (descriptor : CommandDescriptor) (children : List (SlashCommand D)) :
    leaves (.group descriptor children) = (children.flatMap leaves).map fun x => (descriptor.name :: x.1, x.2) := by
  rw [leaves, childLeaves_eq]

theorem leaves_of_isLeaf {command : SlashCommand D} (h : command.isLeaf = true) :
    leaves command = [([command.descriptor.name], command)] := by
  cases command with
  | leaf descriptor kind => rfl
  | group => simp at h

theorem leaves_head (command : SlashCommand D) :
    ∀ x ∈ leaves command, ∃ path, x.1 = command.descriptor.name :: path := by
  intro x hx
  cases command with
  | leaf descriptor kind =>
    rw [leaves, List.mem_singleton] at hx
    exact ⟨[], by rw [hx]; rfl⟩
  | group descriptor children =>
    rw [leaves] at hx
    obtain ⟨y, _, rfl⟩ := List.mem_map.mp hx
    exact ⟨y.1, rfl⟩

theorem siblings_nodup {children : List (SlashCommand D)} (hd : (children.map (·.descriptor.name)).Nodup)
    (hc : ∀ child ∈ children, ((leaves child).map (·.1)).Nodup) :
    ((children.flatMap leaves).map (·.1)).Nodup := by
  induction children with
  | nil => simp
  | cons child rest ih =>
    rw [List.map_cons, List.nodup_cons] at hd
    rw [List.flatMap_cons, List.map_append, List.nodup_append]
    refine ⟨hc child (by simp), ih hd.2 fun c h => hc c (List.mem_cons_of_mem _ h), ?_⟩
    intro a ha b hb he
    obtain ⟨x, hx, rfl⟩ := List.mem_map.mp ha
    obtain ⟨y, hy, rfl⟩ := List.mem_map.mp hb
    obtain ⟨other, ho, hy⟩ := List.mem_flatMap.mp hy
    obtain ⟨px, hpx⟩ := leaves_head child x hx
    obtain ⟨py, hpy⟩ := leaves_head other y hy
    rw [hpx, hpy] at he
    exact hd.1 (List.mem_map.mpr ⟨other, ho, (List.cons.inj he).1.symm⟩)

theorem under_nodup {l : List (List String × SlashCommand D)} (name : String) (h : (l.map (·.1)).Nodup) :
    ((l.map fun x => (name :: x.1, x.2)).map (·.1)).Nodup := by
  have he : (l.map fun x => (name :: x.1, x.2)).map (·.1) = (l.map (·.1)).map (name :: ·) := by
    rw [List.map_map, List.map_map]; rfl
  rw [he]
  exact h.map fun a b hab => (List.cons.inj hab).2

theorem sub_leaves {child : SlashCommand D} (h : ValidSub child) :
    leaves child = [([child.descriptor.name], child)] := by
  cases h; rfl

theorem leaves_nodup {command : SlashCommand D} (h : Valid command) : ((leaves command).map (·.1)).Nodup := by
  cases h with
  | leaf => simp [leaves]
  | group h =>
    rw [leaves_group]
    refine under_nodup _ (siblings_nodup h.distinct fun child hc => ?_)
    cases h.children child hc with
    | sub hs => simp [sub_leaves hs]
    | group hs =>
      rw [leaves_group]
      exact under_nodup _ (siblings_nodup hs.distinct fun sub hm => by simp [sub_leaves (hs.children sub hm)])

theorem registry_leaves_nodup (registry : CommandRegistry D) : (registry.leaves.map (·.1)).Nodup :=
  siblings_nodup registry.iter_nodup fun _ hc => leaves_nodup (CommandRegistry.valid (CommandRegistry.mem_iter.mp hc))

theorem selects_leaves {command leaf : SlashCommand D} {submitted scope : List Submitted}
    {levels : List (String × ApplicationCommandOptionType)} (h : Selects command submitted levels leaf scope) :
    (command.descriptor.name :: levels.map (·.1), leaf) ∈ leaves command := by
  cases h with
  | leaf => exact List.mem_singleton_self _
  | @sub descriptor children child branch hm hl hn hk =>
    rw [leaves_group, List.mem_map]
    refine ⟨([leaf.descriptor.name], leaf), List.mem_flatMap.mpr ⟨leaf, hm, ?_⟩, by simp [hn]⟩
    rw [leaves_of_isLeaf hl]
    exact List.mem_singleton_self _
  | @nested descriptor groupDescriptor children subs _ branch nested hm hm' hl hn hk ho hn' hk' =>
    rw [leaves_group, List.mem_map]
    refine ⟨([groupDescriptor.name, leaf.descriptor.name], leaf),
      List.mem_flatMap.mpr ⟨.group groupDescriptor subs, hm, ?_⟩, by simp [hn, hn']⟩
    rw [leaves_group, List.mem_map]
    refine ⟨([leaf.descriptor.name], leaf), List.mem_flatMap.mpr ⟨leaf, hm', ?_⟩, rfl⟩
    rw [leaves_of_isLeaf hl]
    exact List.mem_singleton_self _

def CommandRegistry.leafAt (registry : CommandRegistry D) (path : List String) : Option (SlashCommand D) :=
  (registry.leaves.find? (·.1 == path)).map (·.2)

/-- Every leaf is the only one on its path. -/
theorem leafAt_iff {registry : CommandRegistry D} {path : List String} {leaf : SlashCommand D} :
    registry.leafAt path = some leaf ↔ (path, leaf) ∈ registry.leaves := by
  unfold CommandRegistry.leafAt
  constructor
  · intro h
    obtain ⟨x, hx, rfl⟩ := Option.map_eq_some_iff.mp h
    have hpath := List.find?_some hx
    rw [beq_iff_eq] at hpath
    rw [← hpath]
    exact List.mem_of_find?_eq_some hx
  · intro h
    rw [Lib.find_key (registry_leaves_nodup registry) h]
    rfl

theorem resolve_leafAt {registry : CommandRegistry D} {name : String} {command : SlashCommand D}
    {submitted : List Submitted} {resolved : ResolvedCommand D} (hg : registry.get name = some command)
    (hr : resolveCommand command submitted = .ok resolved) :
    registry.leafAt resolved.path = some resolved.command := by
  obtain ⟨levels, hs, hp⟩ := resolve_selects hr
  rw [leafAt_iff, hp]
  refine List.mem_flatMap.mpr ⟨command, CommandRegistry.mem_iter.mpr ?_, selects_leaves hs⟩
  rw [registry.keyed hg]
  exact hg

/-! ## The paths of the payload -/

def publishedOptions (command : SlashCommand D) : List ApplicationCommandOption :=
  command.descriptor.options.map createScalarOption

theorem published_scalar (command : SlashCommand D) : (publishedOptions command).all (·.isScalar) = true := by
  simp [publishedOptions, ApplicationCommandOption.isScalar, createScalarOption]

theorem hierarchy_not_scalar (command : SlashCommand D) (kind : ApplicationCommandOptionType)
    (options : List ApplicationCommandOption) : (createHierarchyOption command kind options).isScalar = false := rfl

theorem optionPaths_hierarchy (command : SlashCommand D) (kind : ApplicationCommandOptionType)
    (options : List ApplicationCommandOption) :
    optionPaths (createHierarchyOption command kind options) =
      (payloadPaths options).map (.under command.descriptor.name kind) := rfl

theorem levelPaths_map {α : Type} (f : α → ApplicationCommandOption) (l : List α) :
    levelPaths (l.map f) = l.flatMap fun x => optionPaths (f x) := by
  induction l with
  | nil => rfl
  | cons x l ih => rw [List.map_cons, levelPaths, ih, List.flatMap_cons]

theorem payloadPaths_scalar (command : SlashCommand D) :
    payloadPaths (publishedOptions command) = [⟨[], publishedOptions command⟩] := by
  rw [payloadPaths, if_pos (published_scalar command)]

theorem payloadPaths_level {α : Type} (f : α → ApplicationCommandOption) {l : List α} (hl : l ≠ [])
    (hf : ∀ x, (f x).isScalar = false) : payloadPaths (l.map f) = l.flatMap fun x => optionPaths (f x) := by
  have hall : ¬ (l.map f).all (·.isScalar) = true := by
    obtain ⟨x, hx⟩ := List.exists_mem_of_ne_nil l hl
    rw [List.all_eq_true]
    intro h
    have := h (f x) (List.mem_map_of_mem hx)
    rw [hf x] at this
    cases this
  rw [payloadPaths, if_neg hall, levelPaths_map]

theorem createChild_not_scalar (child : SlashCommand D) : (createChildOption child).isScalar = false := by
  unfold createChildOption
  split <;> rfl

theorem childPaths_leaf {child : SlashCommand D} (h : child.isLeaf = true) :
    optionPaths (createChildOption child) = [⟨[(child.descriptor.name, .subCommand)], publishedOptions child⟩] := by
  rw [createChildOption, if_pos h, optionPaths_hierarchy]
  show (payloadPaths (publishedOptions child)).map _ = _
  rw [payloadPaths_scalar]
  rfl

theorem childPaths_group (descriptor : CommandDescriptor) {subs : List (SlashCommand D)} (h : subs ≠ []) :
    optionPaths (createChildOption (.group descriptor subs)) = subs.map fun sub =>
      ⟨[(descriptor.name, .subCommandGroup), (sub.descriptor.name, .subCommand)], publishedOptions sub⟩ := by
  rw [createChildOption, if_neg (by simp), optionPaths_hierarchy]
  show (payloadPaths (subs.map fun child => createHierarchyOption child .subCommand (publishedOptions child))).map _ = _
  rw [payloadPaths_level _ h fun x => hierarchy_not_scalar x _ _]
  simp only [optionPaths_hierarchy, payloadPaths_scalar, List.map_cons, List.map_nil]
  rw [← List.map_eq_flatMap, List.map_map]
  rfl

/-- The payload's paths for one command, each named from the top level. -/
def named (create : CreateApplicationCommand) : List (List String × PayloadPath) :=
  create.paths.map fun path => (create.name :: path.levels.map (·.1), path)

/-- What a leaf publishes: its path and its scalar options. -/
def published (x : List String × SlashCommand D) : List String × List ApplicationCommandOption :=
  (x.1, publishedOptions x.2)

theorem paths_leaf {command : SlashCommand D} (h : command.isLeaf = true) :
    (createCommand command).paths = [⟨[], publishedOptions command⟩] := by
  rw [CreateApplicationCommand.paths, createCommand]
  show payloadPaths (if command.isLeaf = true then _ else _) = _
  rw [if_pos h]
  exact payloadPaths_scalar command

theorem paths_group (descriptor : CommandDescriptor) {children : List (SlashCommand D)} (h : children ≠ []) :
    (createCommand (.group descriptor children)).paths =
      children.flatMap fun child => optionPaths (createChildOption child) :=
  payloadPaths_level createChildOption h createChild_not_scalar

theorem child_published {child : SlashCommand D} (h : ValidChild child) :
    (optionPaths (createChildOption child)).map (fun path => (path.levels.map (·.1), path.scalars)) =
      (leaves child).map published := by
  cases h with
  | sub hs =>
    have hl : child.isLeaf = true := by cases hs; rfl
    rw [childPaths_leaf hl, sub_leaves hs]
    rfl
  | @group descriptor subs hg =>
    rw [childPaths_group descriptor hg.nonempty, leaves_group, List.map_map, List.map_map]
    have hsubs : subs.flatMap leaves = subs.map fun sub => ([sub.descriptor.name], sub) := by
      rw [List.map_eq_flatMap]
      exact List.flatMap_congr fun sub hm => sub_leaves (hg.children sub hm)
    rw [hsubs, List.map_map]
    rfl

/-- The paths published for a registered tree are its leaves, in order. -/
theorem command_published {command : SlashCommand D} (h : Valid command) :
    (named (createCommand command)).map (fun x => (x.1, x.2.scalars)) = (leaves command).map published := by
  cases h with
  | leaf => rw [named, paths_leaf rfl]; rfl
  | @group descriptor children hg =>
    rw [named, paths_group descriptor hg.nonempty, leaves_group, List.map_map, List.map_map]
    have hch : (children.flatMap fun child => optionPaths (createChildOption child)).map
        (fun path => (path.levels.map (·.1), path.scalars)) = (children.flatMap leaves).map published := by
      rw [List.map_flatMap, List.map_flatMap]
      exact List.flatMap_congr fun child hc => child_published (hg.children child hc)
    have hmap := congrArg (List.map fun x : List String × List ApplicationCommandOption =>
      (descriptor.name :: x.1, x.2)) hch
    rw [List.map_map, List.map_map] at hmap
    exact hmap

theorem registry_published (registry : CommandRegistry D) :
    ((createCommands registry).flatMap named).map (fun x => (x.1, x.2.scalars)) = registry.leaves.map published := by
  rw [createCommands, List.flatMap_map, List.map_flatMap, CommandRegistry.leaves, List.map_flatMap]
  exact List.flatMap_congr fun command hc => command_published (CommandRegistry.valid (CommandRegistry.mem_iter.mp hc))

/-! ## Following a path of the payload -/

/-- The interaction options that follow a path: each level one option of the emitted name
    and kind, the innermost holding `opts`. -/
def follow (levels : List (String × ApplicationCommandOptionType)) (opts : List Submitted) : List Submitted :=
  match levels with
  | [] => opts
  | (name, kind) :: rest => [⟨name, kind, none, follow rest opts, none⟩]

/-- The three shapes of a path, with exactly the emitted kinds. -/
def NativeLevels (levels : List (String × ApplicationCommandOptionType)) : Prop :=
  levels.map (·.2) = [] ∨ levels.map (·.2) = [.subCommand] ∨ levels.map (·.2) = [.subCommandGroup, .subCommand]

/-- Following a path of the payload selects the leaf the path was made from. -/
theorem path_selects {command : SlashCommand D} (h : Valid command) {path : PayloadPath}
    (hp : path ∈ (createCommand command).paths) :
    NativeLevels path.levels ∧ ∃ leaf, (command.descriptor.name :: path.levels.map (·.1), leaf) ∈ leaves command ∧
      path.scalars = publishedOptions leaf ∧ ∀ opts, Selects command (follow path.levels opts) path.levels leaf opts := by
  cases h with
  | @leaf descriptor kind =>
    rw [paths_leaf rfl, List.mem_singleton] at hp
    subst hp
    exact ⟨Or.inl rfl, .leaf descriptor kind, by simp [leaves], rfl, fun opts => .leaf opts⟩
  | @group descriptor children hg =>
    rw [paths_group descriptor hg.nonempty] at hp
    obtain ⟨child, hc, hp⟩ := List.mem_flatMap.mp hp
    have hin : ∀ x ∈ leaves child, (descriptor.name :: x.1, x.2) ∈ leaves (.group descriptor children) := by
      intro x hx
      rw [leaves_group]
      exact List.mem_map.mpr ⟨x, List.mem_flatMap.mpr ⟨child, hc, hx⟩, rfl⟩
    cases hg.children child hc with
    | sub hs =>
      have hl : child.isLeaf = true := by cases hs; rfl
      rw [childPaths_leaf hl, List.mem_singleton] at hp
      subst hp
      refine ⟨Or.inr (Or.inl rfl), child, ?_, rfl, fun opts => ?_⟩
      · exact hin ([child.descriptor.name], child) (by rw [sub_leaves hs]; simp)
      · exact .sub hc hl rfl rfl
    | @group groupDescriptor subs hs =>
      rw [childPaths_group groupDescriptor hs.nonempty] at hp
      obtain ⟨sub, hm, rfl⟩ := List.mem_map.mp hp
      have hsub := hs.children sub hm
      have hl : sub.isLeaf = true := by cases hsub; rfl
      refine ⟨Or.inr (Or.inr rfl), sub, ?_, rfl, fun opts => ?_⟩
      · refine hin (groupDescriptor.name :: [sub.descriptor.name], sub) ?_
        rw [leaves_group]
        refine List.mem_map.mpr ⟨([sub.descriptor.name], sub), List.mem_flatMap.mpr ⟨sub, hm, ?_⟩, rfl⟩
        rw [sub_leaves hsub]; simp
      · let nested : Submitted := ⟨sub.descriptor.name, .subCommand, none, opts, none⟩
        let branch : Submitted := ⟨groupDescriptor.name, .subCommandGroup, none, [nested], none⟩
        exact @Selects.nested D descriptor groupDescriptor children subs sub branch nested
          hc hm hl rfl rfl rfl rfl rfl

/-! ## Agreement -/

def SameChoice (choice : ApplicationCommandOptionChoice) (descriptor : CommandChoiceDescriptor) : Prop :=
  choice.name = descriptor.name ∧
    match choice.value, descriptor.value with
    | .string a, .string b => a = b
    | .integer a, .integer b => a = b
    | .number a, .number b => a = b
    | _, _ => False

/-- A scalar entry carries everything its descriptor says. -/
structure Carries (option : ApplicationCommandOption) (descriptor : CommandOptionDescriptor) : Prop where
  name : option.name = descriptor.name
  description : option.description = descriptor.description
  kind : option.kind = descriptor.kind
  required : option.required = some descriptor.required
  minValue : option.minValue = descriptor.minValue
  maxValue : option.maxValue = descriptor.maxValue
  minLength : option.minLength = descriptor.minLength
  maxLength : option.maxLength = descriptor.maxLength
  choices : List.Forall₂ SameChoice option.choices descriptor.choices
  autocomplete : option.autocomplete = some true ↔ descriptor.autocomplete = true
  scalar : option.options = []

theorem createChoice_same (descriptor : CommandChoiceDescriptor) : SameChoice (createChoice descriptor) descriptor := by
  refine ⟨rfl, ?_⟩
  unfold createChoice
  cases descriptor.value <;> rfl

theorem createScalarOption_carries (descriptor : CommandOptionDescriptor) :
    Carries (createScalarOption descriptor) descriptor where
  name := rfl
  description := rfl
  kind := rfl
  required := rfl
  minValue := rfl
  maxValue := rfl
  minLength := rfl
  maxLength := rfl
  choices := by
    show List.Forall₂ SameChoice (descriptor.choices.map createChoice) descriptor.choices
    rw [List.forall₂_map_left_iff, List.forall₂_same]
    exact fun c _ => createChoice_same c
  autocomplete := by
    show (if descriptor.autocomplete = true then some true else none) = some true ↔ _
    cases descriptor.autocomplete <;> simp
  scalar := rfl

theorem published_carries (command : SlashCommand D) :
    List.Forall₂ Carries (publishedOptions command) command.descriptor.options := by
  rw [publishedOptions, List.forall₂_map_left_iff, List.forall₂_same]
  exact fun descriptor _ => createScalarOption_carries descriptor

/-- The published schema and the resolver describe one tree. -/
structure SchemaAgrees (registry : CommandRegistry D) : Prop where
  /-- A path of the payload, submitted with any options, reaches the leaf it publishes. -/
  routes : ∀ create ∈ createCommands registry, ∀ path ∈ create.paths, NativeLevels path.levels ∧
    ∃ command leaf, registry.get create.name = some command ∧
      (create.name :: path.levels.map (·.1), leaf) ∈ registry.leaves ∧ leaf.isLeaf = true ∧
      List.Forall₂ Carries path.scalars leaf.descriptor.options ∧
      ∀ opts, resolveCommand command (follow path.levels opts) =
        .ok ⟨leaf, create.name :: path.levels.map (·.1), opts⟩
  /-- The payload's paths are the registered leaves, one for one and in order. -/
  covers : List.Forall₂ (fun entry leaf => entry.1 = leaf.1 ∧
    List.Forall₂ Carries entry.2.scalars leaf.2.descriptor.options)
      ((createCommands registry).flatMap named) registry.leaves
  /-- No path occurs twice. -/
  once : (((createCommands registry).flatMap named).map (·.1)).Nodup

/-- For every registry, each path of its payload is routed to the registered leaf it was
    made from, and each registered leaf is published on exactly one path. -/
theorem schema_and_dispatch_agree (registry : CommandRegistry D) : SchemaAgrees registry where
  routes := by
    intro create hcreate path hpath
    obtain ⟨command, hm, rfl⟩ := List.mem_map.mp hcreate
    have hget := CommandRegistry.mem_iter.mp hm
    have hv := CommandRegistry.valid hget
    obtain ⟨hn, leaf, hleaf, hs, hsel⟩ := path_selects hv hpath
    refine ⟨hn, command, leaf, hget, List.mem_flatMap.mpr ⟨command, hm, hleaf⟩, (hsel []).isLeaf, ?_, fun opts => ?_⟩
    · rw [hs]; exact published_carries leaf
    · exact selects_resolve hv (hsel opts)
  covers := by
    have h := registry_published registry
    rw [← List.forall₂_eq_eq_eq, List.forall₂_map_left_iff, List.forall₂_map_right_iff] at h
    refine h.imp fun entry leaf he => ⟨congrArg Prod.fst he, ?_⟩
    rw [show entry.2.scalars = publishedOptions leaf.2 from congrArg Prod.snd he]
    exact published_carries leaf.2
  once := by
    have h := congrArg (List.map Prod.fst) (registry_published registry)
    rw [List.map_map, List.map_map] at h
    show (((createCommands registry).flatMap named).map (Prod.fst ∘ fun x => (x.1, x.2.scalars))).Nodup
    rw [h]
    exact registry_leaves_nodup registry

end GloamCommands
