/-
  GloamCommands.Dispatch.Prepare — from a Gateway event to what would be executed
  (`Framework`, `prepare_dispatch`, `focused_option_index` in crates/gloam-commands/src/framework.rs).

  Gloamwire decodes payloads: an event's `typed` and an interaction's
  `applicationCommandData` are the outcomes of its accessors. The semaphores of the
  prepared values are in `Dispatch.Permits`.
  - `focusedOptionIndex_iff`: the index is that of the one focused option.
-/

import GloamCommands.Core.Resolve
import GloamCommands.Execution.Autocomplete
import Mathlib.Data.List.FinRange

namespace GloamCommands.Dispatch

open Execution (World executeCommand executeAutocomplete)

variable {D : Type}

/-! ## Events -/

inductive TypedDispatchEvent where
  | ready (applicationId : ApplicationId)
  | interactionCreate (interaction : Interaction)
  | other

structure DispatchEvent where
  name : String
  typed : Except Error TypedDispatchEvent

inductive GatewayEvent where
  | dispatch (dispatch : DispatchEvent)
  | other

structure ShardEvent where
  shardId : ShardId
  event : GatewayEvent

def interactionEvent (interaction : Interaction) : GatewayEvent :=
  .dispatch ⟨"INTERACTION_CREATE", .ok (.interactionCreate interaction)⟩

/-! ## The framework -/

/-- A built framework. `build` refuses a limit of zero. -/
structure Framework (D : Type) where
  registry : CommandRegistry D
  registration : Registration
  maxConcurrentCommands : Nat
  beforeHooks : List (CommandHook D)
  afterHooks : List (CommandHook D)
  errorHandler : Option (CommandErrorHandler D)
  limited : maxConcurrentCommands ≠ 0

def defaultMaxConcurrentCommands : Nat := 64

structure FrameworkBuilder (D : Type) where
  commands : List (SlashCommand D) := []
  registration : Registration := .none
  maxConcurrentCommands : Nat := defaultMaxConcurrentCommands
  beforeHooks : List (CommandHook D) := []
  afterHooks : List (CommandHook D) := []
  errorHandler : Option (CommandErrorHandler D) := none

def insertAll (registry : CommandRegistry D) : List (SlashCommand D) → Except Error (CommandRegistry D)
  | [] => .ok registry
  | command :: rest =>
    match registry.insert command with
    | (.error error, _) => .error error
    | (.ok (), registry) => insertAll registry rest

/-- What `build` returns. Above tokio's maximum `Semaphore::new` panics instead; that is
    `FrameworkBuilder.buildSlots`, which goes on from here. -/
def FrameworkBuilder.build (builder : FrameworkBuilder D) : Except Error (Framework D) :=
  if h : builder.maxConcurrentCommands = 0 then .error .invalidConcurrencyLimit
  else
    match insertAll CommandRegistry.new builder.commands with
    | .error error => .error error
    | .ok registry =>
      .ok ⟨registry, builder.registration, builder.maxConcurrentCommands, builder.beforeHooks, builder.afterHooks,
        builder.errorHandler, h⟩

/-! ## Prepared dispatches -/

structure PreparedCommand (D : Type) where
  commandName : String
  handler : CommandHandler D
  policy : CommandPolicy D
  context : Context
  beforeHooks : List (CommandHook D)
  afterHooks : List (CommandHook D)
  errorHandler : Option (CommandErrorHandler D)

structure PreparedAutocomplete (D : Type) where
  commandName : String
  optionKind : ApplicationCommandOptionType
  handler : AutocompleteHandler D
  context : AutocompleteContext

inductive PreparedDispatch (D : Type) where
  | ignored
  | unregistered (name : String)
  | command (command : PreparedCommand D)
  | autocomplete (autocomplete : PreparedAutocomplete D)

def PreparedCommand.execute (prepared : PreparedCommand D) (clock : Instant) (w : World D) :
    Except Error Unit × World D :=
  executeCommand prepared.handler prepared.policy prepared.context clock prepared.beforeHooks prepared.afterHooks
    prepared.errorHandler w

def PreparedAutocomplete.execute (prepared : PreparedAutocomplete D)
    (rest : Nat → String → List ApplicationCommandOptionChoice → Except Error Unit) (w : World D) :
    Except Error Unit × World D :=
  executeAutocomplete rest prepared.optionKind prepared.handler prepared.context w

def focusedOptionIndex (options : List Submitted) (path : List String) : Except Error (Fin options.length) :=
  match (List.finRange options.length).filter (fun index => (options.get index).focused == some true) with
  | [index] => .ok index
  | _ => .error (.invalidAutocompleteFocus (" ".intercalate path))

def prepareAutocomplete (interaction : Interaction) (commandData : ApplicationCommandInteractionData)
    (resolved : ResolvedCommand D) (shardId : Option ShardId) : Except Error (PreparedDispatch D) :=
  match focusedOptionIndex resolved.options resolved.path with
  | .error error => .error error
  | .ok focusedIndex =>
    let focused := resolved.options.get focusedIndex
    let unknown := Error.unknownAutocompleteOption (" ".intercalate resolved.path) focused.name
    let matching := fun option : CommandOptionDescriptor =>
      option.name == focused.name && option.kind == focused.kind && option.autocomplete
    match resolved.command.descriptor.options.find? matching with
    | none => .error unknown
    | some optionDescriptor =>
      match resolved.command.autocompleteHandler optionDescriptor.name with
      | none => .error unknown
      | some handler =>
        .ok (.autocomplete {
          commandName := resolved.command.descriptor.name
          optionKind := optionDescriptor.kind
          handler := handler
          context := ⟨interaction, commandData, resolved.path, resolved.options, focusedIndex, shardId⟩ })

def prepareCommand (framework : Framework D) (interaction : Interaction)
    (commandData : ApplicationCommandInteractionData) (resolved : ResolvedCommand D) (shardId : Option ShardId) :
    Except Error (PreparedDispatch D) :=
  match resolved.command.handler, resolved.command.policy with
  | some handler, some policy =>
    .ok (.command {
      commandName := resolved.command.descriptor.name
      handler := handler
      policy := policy
      context := ⟨interaction, commandData, resolved.path, resolved.options, shardId⟩
      beforeHooks := framework.beforeHooks
      afterHooks := framework.afterHooks
      errorHandler := framework.errorHandler })
  | _, _ => .error (.unknownCommandPath (" ".intercalate resolved.path))

/-- `prepare_dispatch` from the decoded interaction on. -/
def prepareInteraction (framework : Framework D) (interaction : Interaction) (shardId : Option ShardId) :
    Except Error (PreparedDispatch D) :=
  if interaction.kind != .applicationCommand && interaction.kind != .applicationCommandAutocomplete then .ok .ignored
  else
    match interaction.applicationCommandData with
    | .error error => .error error
    | .ok none => .error .missingApplicationCommandData
    | .ok (some commandData) =>
      if commandData.kind != .chatInput then .ok .ignored
      else
        match framework.registry.get commandData.name with
        | none => .ok (.unregistered commandData.name)
        | some command =>
          match resolveCommand command commandData.options with
          | .error error => .error error
          | .ok resolved =>
            if interaction.kind == .applicationCommandAutocomplete then
              prepareAutocomplete interaction commandData resolved shardId
            else prepareCommand framework interaction commandData resolved shardId

def prepareDispatch (framework : Framework D) (event : GatewayEvent) (shardId : Option ShardId) :
    Except Error (PreparedDispatch D) :=
  match event with
  | .other => .ok .ignored
  | .dispatch dispatch =>
    if dispatch.name != "INTERACTION_CREATE" then .ok .ignored
    else
      match dispatch.typed with
      | .error error => .error error
      | .ok (.interactionCreate interaction) => prepareInteraction framework interaction shardId
      | .ok _ => .ok .ignored

def readyApplicationId (event : GatewayEvent) : Except Error (Option ApplicationId) :=
  match event with
  | .other => .ok none
  | .dispatch dispatch =>
    if dispatch.name != "READY" then .ok none
    else
      match dispatch.typed with
      | .error error => .error error
      | .ok (.ready applicationId) => .ok (some applicationId)
      | .ok _ => .ok none

/-! ## What they say -/

def OnlyFocused (options : List Submitted) (index : Fin options.length) : Prop :=
  (options.get index).focused = some true ∧ ∀ other : Fin options.length, (options.get other).focused = some true → other = index

theorem focusedOptionIndex_iff (options : List Submitted) (path : List String) (index : Fin options.length) :
    focusedOptionIndex options path = .ok index ↔ OnlyFocused options index := by
  have hmem : ∀ i, i ∈ (List.finRange options.length).filter (fun i => (options.get i).focused == some true) ↔
      (options.get i).focused = some true := by
    intro i
    rw [List.mem_filter, beq_iff_eq]
    exact ⟨fun h => h.2, fun h => ⟨List.mem_finRange i, h⟩⟩
  have hnodup : ((List.finRange options.length).filter (fun i => (options.get i).focused == some true)).Nodup :=
    (List.nodup_finRange _).filter _
  unfold focusedOptionIndex
  split
  · rename_i single hf
    rw [hf] at hmem
    constructor
    · intro h
      cases h
      exact ⟨(hmem index).mp (List.mem_singleton_self _), fun other ho => List.mem_singleton.mp ((hmem other).mpr ho)⟩
    · intro h
      rw [List.mem_singleton.mp ((hmem index).mpr h.1)]
  · rename_i hf
    refine ⟨fun h => (by cases h), fun h => ?_⟩
    -- distinct indices that all are `index`, with `index` among them: a singleton
    have hall : ∀ i ∈ (List.finRange options.length).filter (fun i => (options.get i).focused == some true), i = index :=
      fun i hi => h.2 i ((hmem i).mp hi)
    have hin := (hmem index).mpr h.1
    cases hl : (List.finRange options.length).filter (fun i => (options.get i).focused == some true) with
    | nil => rw [hl] at hin; cases hin
    | cons a rest =>
      cases rest with
      | nil => exact absurd hl (hf a)
      | cons b rest =>
        rw [hl] at hall hnodup
        have hab : a = b := (hall a (by simp)).trans (hall b (by simp)).symm
        subst hab
        simp at hnodup

end GloamCommands.Dispatch
