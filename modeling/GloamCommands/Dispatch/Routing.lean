/-
  GloamCommands.Dispatch.Routing — where an interaction goes.

  Paths. The chain of an interaction is what it names by `SUB_COMMAND` and
  `SUB_COMMAND_GROUP` options. `resolveCommand` checks names, kinds and arity of the
  levels it walks, but not the scope it arrives at:
  - `stale_subcommand_reaches_leaf`: a submission that still names a subcommand of a
    command that is now a plain leaf runs the leaf's handler.
  - `stale_paths_iff`: everything else is routed by its whole chain or refused.

  Autocomplete. What registration promises of a leaf (`ValidLeaf.served`) is what dispatch
  looks up later:
  - `autocomplete_routing`: an autocomplete interaction is routed exactly by its one
    focused option, and apart from commands.
-/

import GloamCommands.Core.Agreement
import GloamCommands.Dispatch.Builder

namespace GloamCommands.Dispatch

open Execution (World Step)
open Lib (find_unique)

variable {D : Type}

/-! ## The registered leaf -/

theorem selects_validLeaf {command leaf : SlashCommand D} {submitted scope : List Submitted}
    {levels : List (String × ApplicationCommandOptionType)} (hv : Valid command)
    (h : Selects command submitted levels leaf scope) :
    ∃ descriptor kind, leaf = .leaf descriptor kind ∧ ValidLeaf descriptor kind := by
  cases h with
  | leaf =>
    cases hv with
    | leaf hl => exact ⟨_, _, rfl, hl⟩
  | sub hm hl =>
    cases hv with
    | group hg =>
      cases hg.children _ hm with
      | sub hs =>
        cases hs with
        | leaf hleaf => exact ⟨_, _, rfl, hleaf⟩
      | group => cases hl
  | nested hm hm' =>
    cases hv with
    | group hg =>
      cases hg.children _ hm with
      | sub hs => cases hs
      | group hs =>
        cases hs.children _ hm' with
        | leaf hl => exact ⟨_, _, rfl, hl⟩

theorem resolve_validLeaf {command : SlashCommand D} {submitted : List Submitted} {resolved : ResolvedCommand D}
    (hv : Valid command) (h : resolveCommand command submitted = .ok resolved) :
    ∃ descriptor kind, resolved.command = .leaf descriptor kind ∧ ValidLeaf descriptor kind := by
  obtain ⟨levels, hs, -⟩ := resolve_selects h
  exact selects_validLeaf hv hs

/-! ## Submitted chains -/

def isBranch (option : Submitted) : Bool := option.kind == .subCommand || option.kind == .subCommandGroup

mutual

def optionChain : Submitted → Option (List String)
  | ⟨name, kind, _, options, _⟩ =>
    if kind == .subCommand || kind == .subCommandGroup then some (name :: submittedChain options) else none
termination_by structural option => option

/-- The names of the first branch at every level. -/
def submittedChain : List Submitted → List String
  | [] => []
  | option :: rest =>
    match optionChain option with
    | some chain => chain
    | none => submittedChain rest
termination_by structural options => options

end

theorem optionChain_branch {option : Submitted} (h : isBranch option = true) :
    optionChain option = some (option.name :: submittedChain option.options) := by
  obtain ⟨name, kind, value, options, focused⟩ := option
  rw [optionChain]
  exact if_pos h

theorem submittedChain_scalar {options : List Submitted} (h : ∀ option ∈ options, isBranch option = false) :
    submittedChain options = [] := by
  induction options with
  | nil => rfl
  | cons option rest ih =>
    have hnone : optionChain option = none := by
      have hb := h option (List.mem_cons_self ..)
      obtain ⟨name, kind, value, options, focused⟩ := option
      rw [optionChain]
      exact if_neg (ne_true_of_eq_false hb)
    rw [submittedChain, hnone]
    exact ih fun o ho => h o (List.mem_cons_of_mem _ ho)

theorem submittedChain_one {branch : Submitted} (h : isBranch branch = true) :
    submittedChain [branch] = branch.name :: submittedChain branch.options := by
  rw [submittedChain, optionChain_branch h]

/-- A submission that selects a leaf names its levels, and then what its scope names. -/
theorem selects_chain {command leaf : SlashCommand D} {submitted scope : List Submitted}
    {levels : List (String × ApplicationCommandOptionType)} (h : Selects command submitted levels leaf scope) :
    submittedChain submitted = levels.map (·.1) ++ submittedChain scope := by
  cases h with
  | leaf => rfl
  | sub _ _ _ hk => rw [submittedChain_one (by simp [isBranch, hk])]; rfl
  | nested _ _ _ _ hk ho _ hk' =>
    rw [submittedChain_one (by simp [isBranch, hk]), ho, submittedChain_one (by simp [isBranch, hk'])]
    rfl

/-- The submission leads to a registered leaf by registered levels, and has a
    `SUB_COMMAND` or a `SUB_COMMAND_GROUP` left in the leaf's scope. -/
def Stray (command : SlashCommand D) (submitted : List Submitted) : Prop :=
  ∃ levels leaf scope, Selects command submitted levels leaf scope ∧ ∃ option ∈ scope, isBranch option = true

/-- The law for one interaction on `command`: what is accepted is what the interaction
    names, and everything else is an `UnknownCommandPath` that prepares nothing. -/
def NeverFallsThrough (framework : Framework D) (interaction : Interaction) (shardId : Option ShardId)
    (command : SlashCommand D) (submitted : List Submitted) : Prop :=
  (∀ resolved, resolveCommand command submitted = .ok resolved →
      submittedChain submitted = resolved.path.tail ∧ ∀ option ∈ resolved.options, isBranch option = false) ∧
    ∀ error, resolveCommand command submitted = .error error →
      (∃ path, error = .unknownCommandPath path) ∧
        prepareDispatch framework (interactionEvent interaction) shardId = .error error

theorem prepareDispatch_registered {framework : Framework D} {interaction : Interaction} {shardId : Option ShardId}
    {commandData : ApplicationCommandInteractionData} {command : SlashCommand D}
    (hkind : interaction.kind = .applicationCommand ∨ interaction.kind = .applicationCommandAutocomplete)
    (hdata : interaction.applicationCommandData = .ok (some commandData)) (hchat : commandData.kind = .chatInput)
    (hget : framework.registry.get commandData.name = some command) :
    prepareDispatch framework (interactionEvent interaction) shardId =
      (resolveCommand command commandData.options).bind fun resolved =>
        if interaction.kind == .applicationCommandAutocomplete then
          prepareAutocomplete interaction commandData resolved shardId
        else prepareCommand framework interaction commandData resolved shardId := by
  have hk : (interaction.kind != .applicationCommand && interaction.kind != .applicationCommandAutocomplete) = false := by
    rcases hkind with h | h <;> (rw [h]; rfl)
  show prepareInteraction framework interaction shardId = _
  unfold prepareInteraction
  rw [hk, hdata]
  simp only [Bool.false_eq_true, if_false, hchat, bne_self_eq_false, hget]
  cases resolveCommand command commandData.options <;> rfl

/-- A registered command's interaction never falls through exactly if nothing strays. -/
theorem stale_paths_iff (framework : Framework D) (shardId : Option ShardId) {interaction : Interaction}
    {commandData : ApplicationCommandInteractionData} {command : SlashCommand D}
    (hkind : interaction.kind = .applicationCommand ∨ interaction.kind = .applicationCommandAutocomplete)
    (hdata : interaction.applicationCommandData = .ok (some commandData)) (hchat : commandData.kind = .chatInput)
    (hget : framework.registry.get commandData.name = some command) :
    NeverFallsThrough framework interaction shardId command commandData.options ↔
      ¬ Stray command commandData.options := by
  have hv := CommandRegistry.valid hget
  constructor
  · intro ⟨hok, _⟩ ⟨levels, leaf, scope, hs, option, hm, hb⟩
    have := (hok _ (selects_resolve hv hs)).2 option hm
    rw [hb] at this
    cases this
  · intro hstray
    refine ⟨fun resolved hr => ?_, fun error hr => ⟨resolve_error hr, ?_⟩⟩
    · obtain ⟨levels, hs, hp⟩ := resolve_selects hr
      have hscope : ∀ option ∈ resolved.options, isBranch option = false := by
        intro option hm
        by_contra hb
        exact hstray ⟨levels, resolved.command, resolved.options, hs, option, hm, by simpa using hb⟩
      rw [selects_chain hs, submittedChain_scalar hscope, hp]
      exact ⟨by simp, hscope⟩
    · rw [prepareDispatch_registered hkind hdata hchat hget, hr]
      rfl

theorem exists_framework (command : SlashCommand D) (hv : validateHierarchy command = .ok ()) :
    ∃ framework : Framework D, framework.registry.get command.descriptor.name = some command := by
  have hvalid : Valid command := (validateHierarchy_iff command).mp hv
  obtain ⟨framework, hb⟩ := (build_iff { commands := [command] }).mpr
    ⟨Nat.succ_ne_zero 63, List.forall_mem_singleton.mpr hvalid, List.nodup_singleton _⟩
  exact ⟨framework, build_ok hb command (List.mem_singleton_self _)⟩

/-- A subcommand that is registered, and named with its scalar option. -/
theorem stale_paths_iff_registered :
    let ban : SlashCommand Unit := .leaf ⟨"ban", "Ban a member", []⟩ { handler := fun _ data => (.ok (), data) }
    let admin : SlashCommand Unit := .group ⟨"admin", "Administration commands", []⟩ [ban]
    let reason : Submitted := ⟨"reason", .string, some (.string "spam"), [], none⟩
    let commandData : ApplicationCommandInteractionData := ⟨"admin", .chatInput, [⟨"ban", .subCommand, none, [reason], none⟩]⟩
    let interaction : Interaction := ⟨1, 2, .applicationCommand, "token", none, none, none, none, .ok (some commandData)⟩
    ∃ framework : Framework Unit, framework.registry.get "admin" = some admin ∧
      NeverFallsThrough framework interaction none admin commandData.options := by
  intro ban admin reason commandData interaction
  obtain ⟨framework, hget⟩ := exists_framework admin rfl
  refine ⟨framework, hget, (stale_paths_iff framework none (.inl rfl) rfl rfl hget).mpr ?_⟩
  intro ⟨levels, leaf, scope, hs, option, hm, hb⟩
  have hscope : scope = [reason] := by
    have hs : Selects (.group ⟨"admin", "Administration commands", []⟩ [ban])
      [⟨"ban", .subCommand, none, [reason], none⟩] levels leaf scope := hs
    cases hs with
    | sub => rfl
    | nested _ _ _ _ hk => cases hk
  rw [hscope] at hm
  cases List.mem_singleton.mp hm
  cases hb

/-- `admin` is now a plain leaf; an interaction that still names `admin ban` runs it. -/
theorem stale_subcommand_reaches_leaf :
    let admin : SlashCommand Unit :=
      .leaf ⟨"admin", "Administration commands", []⟩ { handler := fun _ data => (.ok (), data) }
    let commandData : ApplicationCommandInteractionData := ⟨"admin", .chatInput, [⟨"ban", .subCommand, none, [], none⟩]⟩
    let interaction : Interaction := ⟨1, 2, .applicationCommand, "token", none, none, none, none, .ok (some commandData)⟩
    ∃ framework : Framework Unit, framework.registry.get "admin" = some admin ∧
      (∃ prepared, prepareDispatch framework (interactionEvent interaction) none = .ok (.command prepared)) ∧
      submittedChain commandData.options = ["ban"] ∧
      ¬ NeverFallsThrough framework interaction none admin commandData.options := by
  intro admin commandData interaction
  obtain ⟨framework, hget⟩ := exists_framework admin rfl
  refine ⟨framework, hget, ?_, rfl, ?_⟩
  · rw [prepareDispatch_registered (.inl rfl) rfl rfl hget]
    exact ⟨_, rfl⟩
  · intro h
    have := (h.1 _ rfl).2 ⟨"ban", .subCommand, none, [], none⟩ (List.mem_singleton_self _)
    cases this

/-! ## Autocomplete -/

def Completable (descriptor : CommandDescriptor) (focused : Submitted) : Prop :=
  ∃ option ∈ descriptor.options, option.name = focused.name ∧ option.kind = focused.kind ∧ option.autocomplete = true

theorem autocompleteHandler_some {descriptor : CommandDescriptor} {kind : SlashCommandLeaf D}
    (hl : ValidLeaf descriptor kind) {name : String} (h : name ∈ kind.autocomplete.map (·.optionName)) :
    ∃ entry ∈ kind.autocomplete, entry.optionName = name ∧
      (∀ other ∈ kind.autocomplete, other.optionName = name → other = entry) ∧
      (SlashCommand.leaf descriptor kind).autocompleteHandler name = some entry.handler := by
  obtain ⟨entry, he, hn⟩ := List.mem_map.mp h
  have huniq : ∀ other ∈ kind.autocomplete, other.optionName = name → other = entry := by
    intro other ho hno
    exact List.inj_on_of_nodup_map hl.distinct ho he (hno.trans hn.symm)
  refine ⟨entry, he, hn, huniq, ?_⟩
  have hfind : kind.autocomplete.find? (fun x => x.optionName == name) = some entry :=
    find_unique he (beq_iff_eq.mpr hn) fun other ho hno => huniq other ho (beq_iff_eq.mp hno)
  show (kind.autocomplete.find? fun x => x.optionName == name).map (·.handler) = some entry.handler
  rw [hfind]
  rfl

structure Routed (resolved : ResolvedCommand D) (index : Fin resolved.options.length)
    (prepared : PreparedAutocomplete D) : Prop where
  handler : ∃ entry ∈ resolved.command.autocompleteHandlers, entry.optionName = (resolved.options.get index).name ∧
    (∀ other ∈ resolved.command.autocompleteHandlers, other.optionName = entry.optionName → other = entry) ∧
    prepared.handler = entry.handler
  kind : prepared.optionKind = (resolved.options.get index).kind
  completes : prepared.optionKind = .string ∨ prepared.optionKind = .integer ∨ prepared.optionKind = .number
  options : prepared.context.commandOptions = resolved.options
  inRange : prepared.context.focusedIndex < prepared.context.commandOptions.length
  focus : prepared.context.commandOptions[prepared.context.focusedIndex]? = some (resolved.options.get index)

theorem completes_iff (kind : ApplicationCommandOptionType) :
    kind.completes = true ↔ kind = .string ∨ kind = .integer ∨ kind = .number := by
  simp [ApplicationCommandOptionType.completes, or_assoc]

/-- A completable focus on a registered leaf is prepared: the handler is there. -/
theorem prepareAutocomplete_routed {interaction : Interaction} {commandData : ApplicationCommandInteractionData}
    {resolved : ResolvedCommand D} {shardId : Option ShardId} {descriptor : CommandDescriptor}
    {kind : SlashCommandLeaf D} (hleaf : resolved.command = .leaf descriptor kind) (hl : ValidLeaf descriptor kind)
    {index : Fin resolved.options.length} (hfocus : OnlyFocused resolved.options index)
    (hc : Completable descriptor (resolved.options.get index)) :
    ∃ prepared, prepareAutocomplete interaction commandData resolved shardId = .ok (.autocomplete prepared) ∧
      Routed resolved index prepared := by
  have hindex := (focusedOptionIndex_iff resolved.options resolved.path index).mpr hfocus
  obtain ⟨option, hmem, hname, hkind, hauto⟩ := hc
  cases hf : resolved.command.descriptor.options.find? (fun option => option.name == (resolved.options.get index).name &&
      option.kind == (resolved.options.get index).kind && option.autocomplete) with
  | none =>
    rw [hleaf] at hf
    have := List.find?_eq_none.mp hf option hmem
    simp [hname, hkind, hauto] at this
  | some found =>
    have hprop := List.find?_some hf
    simp only [Bool.and_eq_true, beq_iff_eq] at hprop
    obtain ⟨⟨hfname, hfkind⟩, hfauto⟩ := hprop
    have hfmem : found ∈ descriptor.options := by
      have := List.mem_of_find?_eq_some hf
      rwa [hleaf] at this
    obtain ⟨hcompletes, -, hserved⟩ := hl.served found hfmem hfauto
    obtain ⟨entry, he, hn, huniq, hhandler⟩ := autocompleteHandler_some hl hserved
    rw [← hleaf] at hhandler
    refine ⟨⟨resolved.command.descriptor.name, found.kind, entry.handler,
      ⟨interaction, commandData, resolved.path, resolved.options, index, shardId⟩⟩, ?_, ?_⟩
    · unfold prepareAutocomplete
      simp only [hindex, hf, hhandler]
    · refine ⟨⟨entry, by rw [hleaf]; exact he, hn.trans hfname, fun other ho hno => ?_, rfl⟩, hfkind,
        (completes_iff _).mp hcompletes, rfl, index.isLt, ?_⟩
      · rw [hleaf] at ho
        exact huniq other ho (hno.trans hn)
      · exact List.getElem?_eq_getElem index.isLt

theorem prepareAutocomplete_inv {interaction : Interaction} {commandData : ApplicationCommandInteractionData}
    {resolved : ResolvedCommand D} {shardId : Option ShardId} {prepared : PreparedDispatch D}
    (h : prepareAutocomplete interaction commandData resolved shardId = .ok prepared) :
    (∃ index, OnlyFocused resolved.options index ∧
        Completable resolved.command.descriptor (resolved.options.get index)) ∧
      ∃ autocomplete, prepared = .autocomplete autocomplete ∧ autocomplete.context.interaction = interaction := by
  unfold prepareAutocomplete at h
  split at h
  · cases h
  rename_i index hindex
  dsimp only at h
  split at h
  · cases h
  rename_i found hf
  split at h
  · cases h
  cases h
  have hprop := List.find?_some hf
  simp only [Bool.and_eq_true, beq_iff_eq] at hprop
  exact ⟨⟨index, (focusedOptionIndex_iff _ _ _).mp hindex, found, List.mem_of_find?_eq_some hf, hprop.1.1, hprop.1.2,
    hprop.2⟩, _, rfl, rfl⟩

theorem prepareCommand_policy {framework : Framework D} {interaction : Interaction}
    {commandData : ApplicationCommandInteractionData} {resolved : ResolvedCommand D} {shardId : Option ShardId}
    {prepared : PreparedCommand D}
    (h : prepareCommand framework interaction commandData resolved shardId = .ok (.command prepared)) :
    prepared.context.commandPath = resolved.path ∧ resolved.command.policy = some prepared.policy := by
  unfold prepareCommand at h
  split at h
  · rename_i hp
    cases h
    exact ⟨rfl, hp⟩
  · cases h

theorem prepareCommand_inv {framework : Framework D} {interaction : Interaction}
    {commandData : ApplicationCommandInteractionData} {resolved : ResolvedCommand D} {shardId : Option ShardId}
    {prepared : PreparedDispatch D} (h : prepareCommand framework interaction commandData resolved shardId = .ok prepared) :
    ∃ command, prepared = .command command ∧ command.context.interaction = interaction := by
  unfold prepareCommand at h
  split at h
  · cases h
    exact ⟨_, rfl, rfl⟩
  · cases h

/-- What a decoded interaction prepares, by the way it went. -/
inductive Prepares (framework : Framework D) (interaction : Interaction) (shardId : Option ShardId) :
    PreparedDispatch D → Prop
  | ignored : Prepares framework interaction shardId .ignored
  | unregistered (name : String) : Prepares framework interaction shardId (.unregistered name)
  | autocomplete {commandData : ApplicationCommandInteractionData} {command : SlashCommand D}
      {resolved : ResolvedCommand D} {prepared : PreparedAutocomplete D} :
      interaction.kind = .applicationCommandAutocomplete → framework.registry.get commandData.name = some command →
      resolveCommand command commandData.options = .ok resolved →
      prepareAutocomplete interaction commandData resolved shardId = .ok (.autocomplete prepared) →
      Prepares framework interaction shardId (.autocomplete prepared)
  | command {commandData : ApplicationCommandInteractionData} {command : SlashCommand D} {resolved : ResolvedCommand D}
      {prepared : PreparedCommand D} : interaction.kind = .applicationCommand →
      framework.registry.get commandData.name = some command → resolveCommand command commandData.options = .ok resolved →
      prepareCommand framework interaction commandData resolved shardId = .ok (.command prepared) →
      Prepares framework interaction shardId (.command prepared)

theorem prepareInteraction_prepares {framework : Framework D} {interaction : Interaction} {shardId : Option ShardId}
    {prepared : PreparedDispatch D} (h : prepareInteraction framework interaction shardId = .ok prepared) :
    Prepares framework interaction shardId prepared := by
  unfold prepareInteraction at h
  split at h
  · cases h; exact .ignored
  rename_i hkind
  split at h
  · cases h
  · cases h
  split at h
  · cases h; exact .ignored
  split at h
  · cases h; exact .unregistered _
  rename_i command hget
  split at h
  · cases h
  rename_i resolved hr
  split at h
  · rename_i hauto
    obtain ⟨-, autocomplete, rfl, -⟩ := prepareAutocomplete_inv h
    exact .autocomplete (beq_iff_eq.mp hauto) hget hr h
  · rename_i hauto
    obtain ⟨command, rfl, -⟩ := prepareCommand_inv h
    refine .command ?_ hget hr h
    simp only [Bool.and_eq_true, bne_iff_ne, ne_eq, not_and, not_not] at hkind
    by_contra hne
    exact hauto (beq_iff_eq.mpr (hkind hne))

theorem prepareDispatch_prepares {framework : Framework D} {event : GatewayEvent} {shardId : Option ShardId}
    {prepared : PreparedDispatch D} (h : prepareDispatch framework event shardId = .ok prepared) :
    prepared = .ignored ∨ ∃ interaction, Prepares framework interaction shardId prepared := by
  unfold prepareDispatch at h
  split at h
  · cases h; exact .inl rfl
  split at h
  · cases h; exact .inl rfl
  split at h
  · cases h
  · exact .inr ⟨_, prepareInteraction_prepares h⟩
  · cases h; exact .inl rfl

/-- A prepared command is a registered leaf's, with that leaf's policy. -/
theorem prepareDispatch_leaf {framework : Framework D} {event : GatewayEvent} {shardId : Option ShardId}
    {prepared : PreparedCommand D} (h : prepareDispatch framework event shardId = .ok (.command prepared)) :
    ∃ leaf, framework.registry.leafAt prepared.context.commandPath = some leaf ∧
      leaf.policy = some prepared.policy := by
  rcases prepareDispatch_prepares h with h | ⟨interaction, h⟩
  · cases h
  · cases h with
    | @command commandData command resolved _ _ hget hr hp =>
      obtain ⟨hpath, hpolicy⟩ := prepareCommand_policy hp
      exact ⟨resolved.command, by rw [hpath]; exact resolve_leafAt hget hr, hpolicy⟩

/-- What a decoded interaction prepares is of its own kind. -/
theorem prepareDispatch_kind {framework : Framework D} {interaction : Interaction} {shardId : Option ShardId} :
    (∀ command, prepareDispatch framework (interactionEvent interaction) shardId = .ok (.command command) →
        interaction.kind = .applicationCommand) ∧
      ∀ autocomplete, prepareDispatch framework (interactionEvent interaction) shardId = .ok (.autocomplete autocomplete) →
        interaction.kind = .applicationCommandAutocomplete := by
  refine ⟨fun command h => ?_, fun autocomplete h => ?_⟩
  · cases prepareInteraction_prepares h with
    | command hkind => exact hkind
  · cases prepareInteraction_prepares h with
    | autocomplete hkind => exact hkind

/-- An autocomplete interaction for a registered name is prepared exactly if its path
    resolves, one option of the leaf's scope is focused, and that names a completing
    option of the leaf; then it is routed there, and the lookup of the handler never fails.
    Interactions of the two kinds never prepare each other's executions, and an
    autocomplete execution touches no policy, hook or cooldown. -/
theorem autocomplete_routing (framework : Framework D) (interaction : Interaction) (shardId : Option ShardId) :
    (∀ commandData command, interaction.kind = .applicationCommandAutocomplete →
        interaction.applicationCommandData = .ok (some commandData) → commandData.kind = .chatInput →
        framework.registry.get commandData.name = some command →
        ((∃ prepared, prepareDispatch framework (interactionEvent interaction) shardId = .ok (.autocomplete prepared)) ↔
          ∃ resolved, resolveCommand command commandData.options = .ok resolved ∧ ∃ index,
            OnlyFocused resolved.options index ∧
              Completable resolved.command.descriptor (resolved.options.get index)) ∧
        (∀ resolved index, resolveCommand command commandData.options = .ok resolved →
          OnlyFocused resolved.options index → Completable resolved.command.descriptor (resolved.options.get index) →
          ∃ prepared, prepareDispatch framework (interactionEvent interaction) shardId = .ok (.autocomplete prepared) ∧
            Routed resolved index prepared) ∧
        ∀ resolved, resolveCommand command commandData.options = .ok resolved →
          ∀ option ∈ resolved.command.descriptor.options, option.autocomplete = true →
            ∃ handler, resolved.command.autocompleteHandler option.name = some handler) ∧
    (interaction.kind = .applicationCommandAutocomplete → ∀ command,
      prepareDispatch framework (interactionEvent interaction) shardId ≠ .ok (.command command)) ∧
    (interaction.kind = .applicationCommand → ∀ autocomplete,
      prepareDispatch framework (interactionEvent interaction) shardId ≠ .ok (.autocomplete autocomplete)) ∧
    ∀ autocomplete, prepareDispatch framework (interactionEvent interaction) shardId = .ok (.autocomplete autocomplete) →
      ∀ rest (w : World D), (autocomplete.execute rest w).2.cooldowns = w.cooldowns ∧
        ∃ steps, (autocomplete.execute rest w).2.trace = w.trace ++ steps ∧ ∀ x ∈ steps, x.step.isAutocomplete = true := by
  refine ⟨fun commandData command hkind hdata hchat hget => ?_, fun hkind command h => ?_, fun hkind autocomplete h => ?_,
    fun autocomplete _ rest w => Execution.executeAutocomplete_separate _ _ _ _ _⟩
  · have hv := CommandRegistry.valid hget
    have hdispatch :=
      @prepareDispatch_registered D framework interaction shardId commandData command (.inr hkind) hdata hchat hget
    have hroute : ∀ resolved index, resolveCommand command commandData.options = .ok resolved →
        OnlyFocused resolved.options index → Completable resolved.command.descriptor (resolved.options.get index) →
        ∃ prepared, prepareDispatch framework (interactionEvent interaction) shardId = .ok (.autocomplete prepared) ∧
          Routed resolved index prepared := by
      intro resolved index hr hfocus hc
      obtain ⟨descriptor, kind, hleaf, hl⟩ := resolve_validLeaf hv hr
      rw [hdispatch, hr, hkind]
      exact prepareAutocomplete_routed hleaf hl hfocus (by rw [hleaf] at hc; exact hc)
    refine ⟨⟨fun ⟨prepared, hp⟩ => ?_, fun ⟨resolved, hr, index, hfocus, hc⟩ => ?_⟩, hroute, fun resolved hr option hm hauto => ?_⟩
    · rw [hdispatch] at hp
      cases hr : resolveCommand command commandData.options with
      | error error => rw [hr] at hp; cases hp
      | ok resolved =>
        rw [hr, hkind] at hp
        exact ⟨resolved, rfl, (prepareAutocomplete_inv hp).1⟩
    · obtain ⟨prepared, hp, -⟩ := hroute resolved index hr hfocus hc
      exact ⟨prepared, hp⟩
    · obtain ⟨descriptor, kind, hleaf, hl⟩ := resolve_validLeaf hv hr
      rw [hleaf] at hm ⊢
      obtain ⟨-, -, hserved⟩ := hl.served option hm hauto
      obtain ⟨entry, -, -, -, hhandler⟩ := autocompleteHandler_some hl hserved
      exact ⟨entry.handler, hhandler⟩
  · have := prepareDispatch_kind.1 command h
    rw [hkind] at this
    cases this
  · have := prepareDispatch_kind.2 autocomplete h
    rw [hkind] at this
    cases this

theorem autocomplete_routing_city :
    let cities : AutocompleteHandlerDescriptor Unit := ⟨"city", fun _ data => (.ok [], data)⟩
    let city : CommandOptionDescriptor :=
      { name := "city", description := "City", kind := .string, required := true, autocomplete := true }
    let weather : SlashCommand Unit :=
      .leaf ⟨"weather", "Forecast", [city]⟩ { handler := fun _ data => (.ok (), data), autocomplete := [cities] }
    let focused : Submitted := ⟨"city", .string, some (.string "Os"), [], some true⟩
    let commandData : ApplicationCommandInteractionData := ⟨"weather", .chatInput, [focused]⟩
    let interaction : Interaction :=
      ⟨1, 2, .applicationCommandAutocomplete, "token", none, none, none, none, .ok (some commandData)⟩
    ∃ (framework : Framework Unit) (prepared : PreparedAutocomplete Unit),
      framework.registry.get "weather" = some weather ∧
      prepareDispatch framework (interactionEvent interaction) none = .ok (.autocomplete prepared) ∧
        prepared.optionKind = .string := by
  intro cities city weather focused commandData interaction
  obtain ⟨framework, hget⟩ := exists_framework weather rfl
  have hroute := ((autocomplete_routing framework interaction none).1 commandData weather rfl rfl rfl hget).2.1
  have hfocus : OnlyFocused [focused] 0 := ⟨rfl, fun other _ => @Subsingleton.elim (Fin 1) _ other 0⟩
  obtain ⟨prepared, hp, hr⟩ :=
    hroute ⟨weather, ["weather"], [focused]⟩ 0 rfl hfocus ⟨city, List.mem_singleton_self _, rfl, rfl, rfl⟩
  exact ⟨framework, prepared, hget, hp, hr.kind⟩

end GloamCommands.Dispatch
