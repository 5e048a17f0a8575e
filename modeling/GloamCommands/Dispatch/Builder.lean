/-
  GloamCommands.Dispatch.Builder — what a builder builds (`FrameworkBuilder` in
  crates/gloam-commands/src/framework.rs), and that the order of its calls does not matter.

  A builder is a list of calls. `build` inserts the commands one by one and stops at the
  first error, so which error it returns depends on the order; whether there is one does
  not. The registry is a map in name order, so neither does what is published: the bulk
  overwrite that synchronizes the commands is the same list for every order.
  - `insertAll_iff`, `insertAll_iter`: what is inserted, and what is then in the registry.
  - `createCommand_outline`: a command is published with its children and options in order.
  - `build_any_order`: both, for any two lists of calls that add the same commands.
-/

import GloamCommands.Core.Registration
import GloamCommands.Dispatch.Prepare

namespace GloamCommands.Dispatch

open Lib (find_key increasing_unique)

variable {D : Type}

/-! ## Calls -/

inductive BuilderCall (D : Type) where
  | command (command : SlashCommand D)
  | commands (commands : List (SlashCommand D))
  | registration (registration : Registration)
  | maxConcurrentCommands (limit : Nat)
  | beforeCommand (hook : CommandHook D)
  | afterCommand (hook : CommandHook D)
  | commandErrorHandler (handler : CommandErrorHandler D)

def FrameworkBuilder.new : FrameworkBuilder D := {}

def FrameworkBuilder.call (builder : FrameworkBuilder D) : BuilderCall D → FrameworkBuilder D
  | .command command => { builder with commands := builder.commands ++ [command] }
  | .commands commands => { builder with commands := builder.commands ++ commands }
  | .registration registration => { builder with registration := registration }
  | .maxConcurrentCommands limit => { builder with maxConcurrentCommands := limit }
  | .beforeCommand hook => { builder with beforeHooks := builder.beforeHooks ++ [hook] }
  | .afterCommand hook => { builder with afterHooks := builder.afterHooks ++ [hook] }
  | .commandErrorHandler handler => { builder with errorHandler := some handler }

def FrameworkBuilder.calls (builder : FrameworkBuilder D) (calls : List (BuilderCall D)) : FrameworkBuilder D :=
  calls.foldl FrameworkBuilder.call builder

def BuilderCall.added : BuilderCall D → List (SlashCommand D)
  | .command one => [one]
  | .commands many => many
  | _ => []

theorem call_commands (builder : FrameworkBuilder D) (call : BuilderCall D) :
    (builder.call call).commands = builder.commands ++ call.added := by
  cases call with
  | command => rfl
  | commands => rfl
  | _ => exact (List.append_nil _).symm

theorem calls_commands (builder : FrameworkBuilder D) (calls : List (BuilderCall D)) :
    (builder.calls calls).commands = builder.commands ++ calls.flatMap BuilderCall.added := by
  induction calls generalizing builder with
  | nil => exact (List.append_nil _).symm
  | cons call rest ih =>
    show ((builder.call call).calls rest).commands = _
    rw [ih, call_commands, List.flatMap_cons, List.append_assoc]

/-! ## Insertion -/

theorem insert_accepts (registry : CommandRegistry D) (command : SlashCommand D) :
    (registry.insert command).1 = .ok () ↔ registry.get command.descriptor.name = none ∧ Valid command := by
  rw [(CommandRegistry.insert_spec registry command).1, CommandRegistry.accepts_iff]

theorem insert_get {registry : CommandRegistry D} {command : SlashCommand D}
    (h : (registry.insert command).1 = .ok ()) (name : String) :
    (registry.insert command).2.get name =
      (registry.get name).or (if command.descriptor.name == name then some command else none) := by
  rw [(CommandRegistry.insert_spec registry command).2, (CommandRegistry.accepts_iff command).mpr ((insert_accepts _ _).mp h).2,
    Bool.and_true]

theorem insertAll_cons (registry : CommandRegistry D) (command : SlashCommand D) (rest : List (SlashCommand D)) :
    (∃ built, insertAll registry (command :: rest) = .ok built) ↔
      (registry.insert command).1 = .ok () ∧ ∃ built, insertAll (registry.insert command).2 rest = .ok built := by
  cases hi : registry.insert command with
  | mk result next =>
    simp only [insertAll, hi]
    cases result with
    | error error => simp
    | ok _ => simp

/-- All commands are inserted exactly if each is valid and no name is taken, before or
    among them. -/
theorem insertAll_iff (registry : CommandRegistry D) (commands : List (SlashCommand D)) :
    (∃ built, insertAll registry commands = .ok built) ↔
      (∀ command ∈ commands, Valid command ∧ registry.get command.descriptor.name = none) ∧ (names commands).Nodup := by
  induction commands generalizing registry with
  | nil => exact ⟨fun _ => ⟨fun _ h => absurd h List.not_mem_nil, List.nodup_nil⟩, fun _ => ⟨registry, rfl⟩⟩
  | cons command rest ih =>
    rw [insertAll_cons, ih]
    -- what is free after the command is inserted is free before, and not its name
    have hfree : (registry.insert command).1 = .ok () → ∀ name,
        ((registry.insert command).2.get name = none ↔ registry.get name = none ∧ command.descriptor.name ≠ name) := by
      intro hok name
      rw [insert_get hok]
      by_cases hname : command.descriptor.name = name <;> simp [hname]
    unfold names
    rw [List.map_cons, List.nodup_cons, List.forall_mem_cons]
    constructor
    · intro ⟨hok, hrest, hnodup⟩
      obtain ⟨hnew, hvalid⟩ := (insert_accepts registry command).mp hok
      refine ⟨⟨⟨hvalid, hnew⟩, fun c hc => ⟨(hrest c hc).1, ((hfree hok _).mp (hrest c hc).2).1⟩⟩, ?_, hnodup⟩
      intro hmem
      obtain ⟨c, hc, hname⟩ := List.mem_map.mp hmem
      exact ((hfree hok _).mp (hrest c hc).2).2 hname.symm
    · intro ⟨⟨⟨hvalid, hnew⟩, hrest⟩, hname, hnodup⟩
      have hok := (insert_accepts registry command).mpr ⟨hnew, hvalid⟩
      refine ⟨hok, fun c hc => ⟨(hrest c hc).1, (hfree hok _).mpr ⟨(hrest c hc).2, fun heq => ?_⟩⟩, hnodup⟩
      exact hname (List.mem_map.mpr ⟨c, hc, heq.symm⟩)

theorem insertAll_get {commands : List (SlashCommand D)} : ∀ {registry built : CommandRegistry D},
    insertAll registry commands = .ok built →
    ∀ name, built.get name = (registry.get name).or (commands.find? (·.descriptor.name == name)) := by
  induction commands with
  | nil =>
    intro registry built h name
    cases h
    exact (Option.or_none).symm
  | cons command rest ih =>
    intro registry built h name
    have hok : (registry.insert command).1 = .ok () := ((insertAll_cons registry command rest).mp ⟨built, h⟩).1
    have hrest : insertAll (registry.insert command).2 rest = .ok built := by
      cases hi : registry.insert command with
      | mk result next =>
        rw [hi] at hok
        simp only [insertAll, hi] at h
        cases hok
        exact h
    rw [ih hrest, insert_get hok, Option.or_assoc, List.find?_cons]
    by_cases hname : (command.descriptor.name == name) = true
    · simp [hname]
    · simp [Bool.eq_false_iff.mpr hname]

theorem insertAll_iter {commands : List (SlashCommand D)} {built : CommandRegistry D}
    (h : insertAll CommandRegistry.new commands = .ok built) : built.iter.Perm commands := by
  obtain ⟨-, hnodup⟩ := (insertAll_iff CommandRegistry.new commands).mp ⟨built, h⟩
  have hget : ∀ name, built.get name = commands.find? (·.descriptor.name == name) := by
    intro name
    rw [insertAll_get h, show (CommandRegistry.new : CommandRegistry D).get name = none from rfl, Option.none_or]
  refine (List.perm_ext_iff_of_nodup built.iter_nodup.of_map hnodup.of_map).mpr fun command => ?_
  rw [CommandRegistry.mem_iter, hget]
  exact ⟨fun hfind => List.mem_of_find?_eq_some hfind, fun hmem => find_key hnodup hmem⟩

/-- Registries with the same commands are the same to look up and to go through. -/
theorem registry_eq {r r' : CommandRegistry D} (h : r.iter.Perm r'.iter) :
    r.iter = r'.iter ∧ ∀ name, r.get name = r'.get name := by
  refine ⟨increasing_unique r.iter_sorted r'.iter_sorted h, fun name => ?_⟩
  have hmem : ∀ (s : CommandRegistry D) (command : SlashCommand D),
      s.get name = some command ↔ command ∈ s.iter ∧ command.descriptor.name = name := by
    intro s command
    rw [CommandRegistry.mem_iter]
    constructor
    · intro hget
      have hname := s.keyed hget
      exact ⟨by rw [hname]; exact hget, hname⟩
    · intro ⟨hget, hname⟩
      rw [← hname]
      exact hget
  ext command
  rw [hmem, hmem, h.mem_iff]

/-! ## The published order -/

inductive Outline where
  | node (name : String) (children : List Outline)

mutual

/-- A leaf's options, a group's children, as declared. -/
def outline : SlashCommand D → Outline
  | .leaf descriptor _ => .node descriptor.name (descriptor.options.map fun option => .node option.name [])
  | .group descriptor children => .node descriptor.name (outlines children)
termination_by structural command => command

def outlines : List (SlashCommand D) → List Outline
  | [] => []
  | child :: rest => outline child :: outlines rest
termination_by structural children => children

end

mutual

def optionOutline : ApplicationCommandOption → Outline
  | ⟨_, name, _, _, _, _, _, options, _, _, _, _, _, _, _⟩ => .node name (optionOutlines options)
termination_by structural option => option

def optionOutlines : List ApplicationCommandOption → List Outline
  | [] => []
  | option :: rest => optionOutline option :: optionOutlines rest
termination_by structural options => options

end

def payloadOutline (create : CreateApplicationCommand) : Outline := .node create.name (optionOutlines create.options)

theorem outlines_eq (children : List (SlashCommand D)) : outlines children = children.map outline := by
  induction children with
  | nil => rfl
  | cons child rest ih => rw [outlines, ih, List.map_cons]

theorem optionOutlines_map {α : Type} (f : α → ApplicationCommandOption) (l : List α) :
    optionOutlines (l.map f) = l.map fun x => optionOutline (f x) := by
  induction l with
  | nil => rfl
  | cons x l ih => rw [List.map_cons, optionOutlines, ih, List.map_cons]

theorem scalarOutlines (descriptor : CommandDescriptor) (kind : SlashCommandLeaf D) :
    Outline.node descriptor.name (optionOutlines (descriptor.options.map createScalarOption)) =
      outline (.leaf descriptor kind) := by
  rw [optionOutlines_map]
  rfl

theorem createSub_outline {child : SlashCommand D} (h : ValidSub child) :
    optionOutline (createHierarchyOption child .subCommand (child.descriptor.options.map createScalarOption)) =
      outline child := by
  cases h with
  | @leaf descriptor kind => exact scalarOutlines descriptor kind

theorem createChild_outline {child : SlashCommand D} (h : ValidChild child) :
    optionOutline (createChildOption child) = outline child := by
  cases h with
  | sub hs =>
    cases hs with
    | @leaf descriptor kind hl => exact createSub_outline (.leaf hl)
  | @group descriptor children hg =>
    show Outline.node descriptor.name (optionOutlines (children.map _)) = outline (.group descriptor children)
    rw [optionOutlines_map, outline, outlines_eq]
    congr 1
    exact List.map_congr_left fun sub hsub => createSub_outline (hg.children sub hsub)

/-- A valid command is published with its children and options in order. -/
theorem createCommand_outline {command : SlashCommand D} (h : Valid command) :
    payloadOutline (createCommand command) = outline command := by
  cases h with
  | @leaf descriptor kind => exact scalarOutlines descriptor kind
  | @group descriptor children hg =>
    show Outline.node descriptor.name (optionOutlines (children.map createChildOption)) = outline (.group descriptor children)
    rw [optionOutlines_map, outline, outlines_eq]
    congr 1
    exact List.map_congr_left fun child hchild => createChild_outline (hg.children child hchild)

/-! ## Any order -/

/-- `build` succeeds exactly on valid commands of distinct names, under a positive limit. -/
theorem build_iff (builder : FrameworkBuilder D) :
    (∃ framework, builder.build = .ok framework) ↔
      builder.maxConcurrentCommands ≠ 0 ∧ (∀ command ∈ builder.commands, Valid command) ∧ (names builder.commands).Nodup := by
  have hinsert := insertAll_iff CommandRegistry.new builder.commands
  have hfree : ∀ name, (CommandRegistry.new : CommandRegistry D).get name = none := fun _ => rfl
  simp only [hfree, and_true] at hinsert
  rw [← hinsert]
  unfold FrameworkBuilder.build
  split
  · rename_i hzero
    simp [hzero]
  · rename_i hlimit
    cases insertAll CommandRegistry.new builder.commands with
    | error error => simp
    | ok registry => simp [hlimit]

theorem build_registry {builder : FrameworkBuilder D} {framework : Framework D} (h : builder.build = .ok framework) :
    insertAll CommandRegistry.new builder.commands = .ok framework.registry := by
  unfold FrameworkBuilder.build at h
  split at h
  · cases h
  · split at h
    · cases h
    · rename_i registry hr
      cases h
      exact hr

theorem build_ok {builder : FrameworkBuilder D} {framework : Framework D} (h : builder.build = .ok framework) :
    ∀ command ∈ builder.commands, framework.registry.get command.descriptor.name = some command := by
  intro command hc
  exact CommandRegistry.mem_iter.mp ((insertAll_iter (build_registry h)).mem_iff.mpr hc)

/-- Calls that add the same commands in any order, one by one or several at once, with
    any other calls between them: `build` succeeds for one exactly if it does for the
    other, that is if every command is valid and the names are distinct; and then every
    name is answered with the same command and the same list is published, the commands
    in strict name order, each with its children and options in their own. -/
theorem build_any_order (first second : List (BuilderCall D))
    (hfirst : (FrameworkBuilder.new.calls first).maxConcurrentCommands ≠ 0)
    (hsecond : (FrameworkBuilder.new.calls second).maxConcurrentCommands ≠ 0)
    (hperm : (first.flatMap BuilderCall.added).Perm (second.flatMap BuilderCall.added)) :
    let commands := first.flatMap BuilderCall.added
    ((∃ framework, (FrameworkBuilder.new.calls first).build = .ok framework) ↔
      (∀ command ∈ commands, Valid command) ∧ (names commands).Nodup) ∧
    ((∃ framework, (FrameworkBuilder.new.calls second).build = .ok framework) ↔
      (∀ command ∈ commands, Valid command) ∧ (names commands).Nodup) ∧
    ∀ f g, (FrameworkBuilder.new.calls first).build = .ok f → (FrameworkBuilder.new.calls second).build = .ok g →
      (∀ name, f.registry.get name = g.registry.get name) ∧
      createCommands f.registry = createCommands g.registry ∧
      (∃ sorted : List (SlashCommand D), sorted.Perm commands ∧ createCommands f.registry = sorted.map createCommand) ∧
      (createCommands f.registry).Pairwise (fun a b => a.name < b.name) ∧
      ∀ command ∈ commands, payloadOutline (createCommand command) = outline command := by
  intro commands
  have hcommands : (FrameworkBuilder.new.calls first).commands = commands := calls_commands FrameworkBuilder.new first
  have hcommands' : (FrameworkBuilder.new.calls second).commands = second.flatMap BuilderCall.added :=
    calls_commands FrameworkBuilder.new second
  have hbuild : (∃ framework, (FrameworkBuilder.new.calls first).build = .ok framework) ↔
      (∀ command ∈ commands, Valid command) ∧ (names commands).Nodup := by
    rw [build_iff, hcommands]
    exact ⟨fun h => h.2, fun h => ⟨hfirst, h⟩⟩
  refine ⟨hbuild, ?_, fun f g hf hg => ?_⟩
  · rw [build_iff, hcommands']
    have hnames : (names (second.flatMap BuilderCall.added)).Nodup ↔ (names commands).Nodup :=
      (hperm.symm.map _).nodup_iff
    have hvalid : (∀ command ∈ second.flatMap BuilderCall.added, Valid command) ↔ ∀ command ∈ commands, Valid command :=
      forall_congr' fun command => by rw [hperm.mem_iff]
    rw [hnames, hvalid]
    exact ⟨fun h => h.2, fun h => ⟨hsecond, h⟩⟩
  · have hf' := build_registry hf
    have hg' := build_registry hg
    rw [hcommands] at hf'
    rw [hcommands'] at hg'
    have hiter : f.registry.iter.Perm commands := insertAll_iter hf'
    obtain ⟨heq, hget⟩ := registry_eq (hiter.trans (hperm.trans (insertAll_iter hg').symm))
    refine ⟨hget, by unfold createCommands; rw [heq], ⟨f.registry.iter, hiter, rfl⟩, ?_, fun command hc => ?_⟩
    · unfold createCommands
      rw [List.pairwise_map]
      exact f.registry.iter_sorted
    · exact createCommand_outline ((hbuild.mp ⟨f, hf⟩).1 command hc)

theorem build_any_order_ping :
    let ping : SlashCommand Unit := .leaf ⟨"ping", "Check bot responsiveness", []⟩ { handler := fun _ data => (.ok (), data) }
    let roll : SlashCommand Unit := .leaf ⟨"roll", "Roll a die", []⟩ { handler := fun _ data => (.ok (), data) }
    (∃ framework, (FrameworkBuilder.new.calls [.command roll, .maxConcurrentCommands 8, .command ping]).build = .ok framework) ∧
      ∃ framework, (FrameworkBuilder.new.calls [.commands [ping, roll]]).build = .ok framework := by
  intro ping roll
  have horder := build_any_order [.command roll, .maxConcurrentCommands 8, .command ping] [.commands [ping, roll]]
    (by decide) (by decide) (List.Perm.swap ping roll [])
  have hroll : Valid roll := (validateHierarchy_iff roll).mp rfl
  have hping : Valid ping := (validateHierarchy_iff ping).mp rfl
  have hvalid : (∀ command ∈ [roll, ping], Valid command) ∧ (names [roll, ping]).Nodup :=
    ⟨List.forall_mem_cons.mpr ⟨hroll, List.forall_mem_singleton.mpr hping⟩, by decide⟩
  exact ⟨horder.1.mpr hvalid, horder.2.1.mpr hvalid⟩

end GloamCommands.Dispatch
