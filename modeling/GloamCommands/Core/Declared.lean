/-
  GloamCommands.Core.Declared — what of a registry is in its payload
  (`create_commands` in crates/gloam-commands/src/registration.rs, read backwards).

  A `Declared` command is a tree without what it executes: the descriptors alone. Every
  field of a descriptor goes into the payload, and a level of the hierarchy is told from a
  scalar option by `required`, a leaf from a group by its kind or by what is below it. So
  a registered tree is read back from what is published of it.
  - `readCommand_create`: reading a payload gives the tree it was made from.
  - `published_declares`: what is published and what is declared determine one another.
-/

import GloamCommands.Core.Agreement
import GloamCommands.Lib.Collect

namespace GloamCommands

open Lib (map_through)

variable {D E : Type}

/-! ## Trees of descriptors -/

inductive Declared where
  | leaf (descriptor : CommandDescriptor)
  | group (descriptor : CommandDescriptor) (children : List Declared)

namespace Declared

def descriptor : Declared → CommandDescriptor
  | leaf descriptor => descriptor
  | group descriptor _ => descriptor

def isLeaf : Declared → Bool
  | leaf _ => true
  | group _ _ => false

def children : Declared → List Declared
  | leaf _ => []
  | group _ children => children

end Declared

mutual

def declared : SlashCommand D → Declared
  | .leaf descriptor _ => .leaf descriptor
  | .group descriptor children => .group descriptor (declaredAll children)
termination_by structural command => command

def declaredAll : List (SlashCommand D) → List Declared
  | [] => []
  | child :: rest => declared child :: declaredAll rest
termination_by structural children => children

end

theorem declaredAll_map (children : List (SlashCommand D)) : declaredAll children = children.map declared := by
  induction children with
  | nil => rfl
  | cons child rest ih => rw [declaredAll, ih, List.map_cons]

@[simp] theorem declared_descriptor (command : SlashCommand D) : (declared command).descriptor = command.descriptor := by
  cases command <;> rfl

@[simp] theorem declared_isLeaf (command : SlashCommand D) : (declared command).isLeaf = command.isLeaf := by
  cases command <;> rfl

@[simp] theorem declared_children (command : SlashCommand D) :
    (declared command).children = command.children.map declared := by
  cases command with
  | leaf => rfl
  | group descriptor children => exact declaredAll_map children

/-! ## Reading a payload -/

def readChoice (choice : ApplicationCommandOptionChoice) : CommandChoiceDescriptor where
  name := choice.name
  value :=
    match choice.value with
    | .string value => .string value
    | .integer value => .integer value
    | .number value => .number value

def readScalar (option : ApplicationCommandOption) : Option CommandOptionDescriptor :=
  option.required.map fun required => {
    name := option.name
    description := option.description
    kind := option.kind
    required := required
    choices := option.choices.map readChoice
    autocomplete := option.autocomplete.getD false
    minValue := option.minValue
    maxValue := option.maxValue
    minLength := option.minLength
    maxLength := option.maxLength }

def readSub (option : ApplicationCommandOption) : Declared :=
  .leaf ⟨option.name, option.description, option.options.filterMap readScalar⟩

def readChild (option : ApplicationCommandOption) : Declared :=
  if option.kind == .subCommandGroup then .group ⟨option.name, option.description, []⟩ (option.options.map readSub)
  else readSub option

def readCommand (create : CreateApplicationCommand) : Declared :=
  if create.options.all (·.isScalar) then .leaf ⟨create.name, create.description, create.options.filterMap readScalar⟩
  else .group ⟨create.name, create.description, []⟩ (create.options.map readChild)

theorem readChoice_create (choice : CommandChoiceDescriptor) : readChoice (createChoice choice) = choice := by
  obtain ⟨name, value⟩ := choice
  cases value <;> rfl

theorem readScalar_create (option : CommandOptionDescriptor) : readScalar (createScalarOption option) = some option := by
  have hchoices : (option.choices.map createChoice).map readChoice = option.choices := by
    rw [List.map_map]
    exact (List.map_congr_left fun choice _ => readChoice_create choice).trans (List.map_id _)
  have hauto : (if option.autocomplete then some true else none : Option Bool).getD false = option.autocomplete := by
    cases option.autocomplete <;> rfl
  simp only [readScalar, createScalarOption, Option.map_some, hchoices, hauto]

theorem readScalars_create (options : List CommandOptionDescriptor) :
    (options.map createScalarOption).filterMap readScalar = options := by
  induction options with
  | nil => rfl
  | cons option rest ih => rw [List.map_cons, List.filterMap_cons_some (readScalar_create option), ih]

theorem readSub_create {child : SlashCommand D} (h : ValidSub child) (kind : ApplicationCommandOptionType) :
    readSub (createHierarchyOption child kind (child.descriptor.options.map createScalarOption)) = declared child := by
  cases h with
  | @leaf descriptor leaf =>
    show Declared.leaf ⟨_, _, (descriptor.options.map createScalarOption).filterMap readScalar⟩ = _
    rw [readScalars_create]
    rfl

theorem readChild_create {child : SlashCommand D} (h : ValidChild child) :
    readChild (createChildOption child) = declared child := by
  cases h with
  | sub hs =>
    cases hs with
    | leaf hl => exact readSub_create (.leaf hl) .subCommand
  | @group descriptor children hg =>
    have hdescriptor : (⟨descriptor.name, descriptor.description, []⟩ : CommandDescriptor) = descriptor := by
      rw [← hg.noOptions]
    show Declared.group ⟨descriptor.name, descriptor.description, []⟩ ((children.map _).map readSub) =
      .group descriptor (declaredAll children)
    rw [hdescriptor, List.map_map, declaredAll_map]
    exact congrArg _ (List.map_congr_left fun sub hsub => readSub_create (hg.children sub hsub) .subCommand)

theorem readCommand_create {command : SlashCommand D} (h : Valid command) :
    readCommand (createCommand command) = declared command := by
  cases h with
  | @leaf descriptor leaf =>
    have hscalar : (descriptor.options.map createScalarOption).all (·.isScalar) = true := by
      rw [List.all_map]
      exact List.all_eq_true.mpr fun _ _ => rfl
    show (if (descriptor.options.map createScalarOption).all (·.isScalar) = true then
      Declared.leaf ⟨_, _, (descriptor.options.map createScalarOption).filterMap readScalar⟩ else _) = _
    rw [if_pos hscalar, readScalars_create]
    rfl
  | @group descriptor children hg =>
    have hdescriptor : (⟨descriptor.name, descriptor.description, []⟩ : CommandDescriptor) = descriptor := by
      rw [← hg.noOptions]
    -- a group has a child, and no child is a scalar option
    have hlevel : ¬ (children.map createChildOption).all (·.isScalar) = true := by
      obtain ⟨child, hchild⟩ := List.exists_mem_of_ne_nil _ hg.nonempty
      intro hall
      have hscalar := List.all_eq_true.mp hall _ (List.mem_map_of_mem hchild)
      cases child <;> cases hscalar
    show (if (children.map createChildOption).all (·.isScalar) = true then _ else
      Declared.group ⟨descriptor.name, descriptor.description, []⟩ ((children.map createChildOption).map readChild)) = _
    rw [if_neg hlevel, hdescriptor, List.map_map]
    show _ = Declared.group descriptor (declaredAll children)
    rw [declaredAll_map]
    exact congrArg _ (List.map_congr_left fun child hchild => readChild_create (hg.children child hchild))

/-! ## The same payload -/

/-- Trees declared alike have the same descriptor, are alike a leaf, and have children
    declared alike. -/
theorem declared_same {a : SlashCommand D} {b : SlashCommand E} (h : declared a = declared b) :
    a.descriptor = b.descriptor ∧ a.isLeaf = b.isLeaf ∧ a.children.map declared = b.children.map declared := by
  refine ⟨?_, ?_, ?_⟩
  · rw [← declared_descriptor a, h, declared_descriptor]
  · rw [← declared_isLeaf a, h, declared_isLeaf]
  · rw [← declared_children a, h, declared_children]

theorem createLevel_same {a : SlashCommand D} {b : SlashCommand E} (kind : ApplicationCommandOptionType)
    (options : List ApplicationCommandOption) (h : declared a = declared b) :
    createHierarchyOption a kind options = createHierarchyOption b kind options := by
  unfold createHierarchyOption
  rw [(declared_same h).1]

theorem createChild_same {a : SlashCommand D} {b : SlashCommand E} (h : declared a = declared b) :
    createChildOption a = createChildOption b := by
  obtain ⟨hdescriptor, hleaf, hchildren⟩ := declared_same h
  have hsubs : (a.children.map fun child =>
      createHierarchyOption child .subCommand (child.descriptor.options.map createScalarOption)) =
        b.children.map fun child =>
          createHierarchyOption child .subCommand (child.descriptor.options.map createScalarOption) := by
    refine map_through (fun x y hxy => ?_) hchildren
    rw [(declared_same hxy).1]
    exact createLevel_same _ _ hxy
  unfold createChildOption
  rw [hleaf, hdescriptor, hsubs, createLevel_same _ _ h, createLevel_same _ _ h]

theorem createCommand_same {a : SlashCommand D} {b : SlashCommand E} (h : declared a = declared b) :
    createCommand a = createCommand b := by
  obtain ⟨hdescriptor, hleaf, hchildren⟩ := declared_same h
  unfold createCommand
  rw [hleaf, hdescriptor, map_through (fun _ _ hxy => createChild_same hxy) hchildren]

theorem readCommands_create (registry : CommandRegistry D) :
    (createCommands registry).map readCommand = registry.iter.map declared := by
  unfold createCommands
  rw [List.map_map]
  exact List.map_congr_left fun command hcommand =>
    readCommand_create (CommandRegistry.valid (CommandRegistry.mem_iter.mp hcommand))

/-- The registered trees of descriptors are read back from the payload. Two registries are
    published alike exactly if they declare the same, whatever their commands execute. -/
theorem published_declares (first : CommandRegistry D) (second : CommandRegistry E) :
    (createCommands first).map readCommand = first.iter.map declared ∧
      (createCommands first = createCommands second ↔ first.iter.map declared = second.iter.map declared) := by
  refine ⟨readCommands_create first, fun h => ?_, fun h => map_through (fun _ _ hxy => createCommand_same hxy) h⟩
  rw [← readCommands_create first, ← readCommands_create second, h]

end GloamCommands
