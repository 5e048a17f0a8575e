/-
  GloamCommands.Dispatch.Unroutable — which error an event is refused with
  (`resolve_command`, `only_branch`, `prepare_dispatch`, `spawn_prepared` in
  crates/gloam-commands/src/framework.rs).

  A submission is followed down the registered tree until it is stuck (`Stuck`): at a
  group, with no option or several left, or with one that names no child of its kind. The
  error's path is the group's, and then the name that leads nowhere. An autocomplete
  interaction that does reach a leaf can still have no option, or several, in focus, or one
  that nobody completes.
  - `resolve_stuck`: the resolver's error is where the submission is stuck.
  - `dispatch_error_exact`: the errors of `dispatch`, whatever has run before.
-/

import GloamCommands.Dispatch.Drain

namespace GloamCommands.Dispatch

open Lib (run)

variable {D : Type}

/-! ## Where a submission is stuck -/

def levelKind (command : SlashCommand D) : ApplicationCommandOptionType :=
  if command.isLeaf then .subCommand else .subCommandGroup

/-- A submission that came to a command by the levels `before`, and where it is stuck. -/
inductive Stuck : List String → SlashCommand D → List Submitted → Error → Prop
  | notOne {before : List String} {descriptor : CommandDescriptor} {children : List (SlashCommand D)}
      {submitted : List Submitted} : (∀ branch, submitted ≠ [branch]) →
      Stuck before (.group descriptor children) submitted
        (.unknownCommandPath (" ".intercalate (before ++ [descriptor.name])))
  | noChild {before : List String} {descriptor : CommandDescriptor} {children : List (SlashCommand D)}
      {branch : Submitted} :
      (∀ child ∈ children, branch.name = child.descriptor.name → branch.kind ≠ levelKind child) →
      Stuck before (.group descriptor children) [branch]
        (.unknownCommandPath (" ".intercalate (before ++ [descriptor.name] ++ [branch.name])))
  | deeper {before : List String} {descriptor : CommandDescriptor} {children : List (SlashCommand D)}
      {child : SlashCommand D} {branch : Submitted} {error : Error} : child ∈ children →
      branch.name = child.descriptor.name → branch.kind = levelKind child →
      Stuck (before ++ [descriptor.name]) child branch.options error →
      Stuck before (.group descriptor children) [branch] error

theorem onlyBranch_refused {submitted : List Submitted} {path : List String} {error : Error}
    (h : onlyBranch submitted path = .error error) :
    (∀ branch, submitted ≠ [branch]) ∧ error = .unknownCommandPath (" ".intercalate path) := by
  unfold onlyBranch at h
  split at h
  · cases h
  · rename_i hnone
    cases h
    exact ⟨fun branch => hnone branch, rfl⟩

theorem error_iff {α : Type} {refused error : Error} : (Except.error refused : Except Error α) = .error error ↔ error = refused :=
  ⟨fun h => (Except.error.inj h).symm, fun h => congrArg Except.error h.symm⟩

theorem not_stuck_leaf {before : List String} {command : SlashCommand D} {submitted : List Submitted} {error : Error}
    (hl : command.isLeaf = true) : ¬ Stuck before command submitted error := by
  intro h
  cases h <;> cases hl

section Level

variable {before : List String} {descriptor : CommandDescriptor} {children : List (SlashCommand D)} {branch : Submitted}
  {error : Error}

theorem stuck_notOne {submitted : List Submitted} (h : ∀ branch, submitted ≠ [branch]) :
    Stuck before (.group descriptor children) submitted error ↔
      error = .unknownCommandPath (" ".intercalate (before ++ [descriptor.name])) := by
  constructor
  · intro hs
    cases hs with
    | notOne => rfl
    | noChild => exact absurd rfl (h _)
    | deeper => exact absurd rfl (h _)
  · intro he
    rw [he]
    exact .notOne h

theorem stuck_noChild
    (h : ∀ child ∈ children, branch.name = child.descriptor.name → branch.kind ≠ levelKind child) :
    Stuck before (.group descriptor children) [branch] error ↔
      error = .unknownCommandPath (" ".intercalate (before ++ [descriptor.name] ++ [branch.name])) := by
  constructor
  · intro hs
    cases hs with
    | notOne hmany => exact absurd rfl (hmany branch)
    | noChild => rfl
    | deeper hm hn hk => exact absurd hk (h _ hm hn)
  · intro he
    rw [he]
    exact .noChild h

/-- Among children of distinct names, the one found is the only one to go on with. -/
theorem stuck_deeper (hd : (names children).Nodup) {child : SlashCommand D} (hm : child ∈ children)
    (hn : branch.name = child.descriptor.name) (hk : branch.kind = levelKind child) :
    Stuck before (.group descriptor children) [branch] error ↔
      Stuck (before ++ [descriptor.name]) child branch.options error := by
  constructor
  · intro hs
    cases hs with
    | notOne hmany => exact absurd rfl (hmany branch)
    | noChild hno => exact absurd hk (hno child hm hn)
    | deeper hm' hn' hk' hbelow =>
      obtain rfl := List.inj_on_of_nodup_map hd hm hm' (hn.symm.trans hn')
      exact hbelow
  · intro hbelow
    exact .deeper hm hn hk hbelow

theorem stuck_mismatch (hd : (names children).Nodup) {child : SlashCommand D} (hm : child ∈ children)
    (hn : branch.name = child.descriptor.name) (hk : branch.kind ≠ levelKind child) :
    Stuck before (.group descriptor children) [branch] error ↔
      error = .unknownCommandPath (" ".intercalate (before ++ [descriptor.name] ++ [child.descriptor.name])) := by
  rw [← hn]
  refine stuck_noChild fun other hother hname => ?_
  obtain rfl := List.inj_on_of_nodup_map hd hm hother (hn.symm.trans hname)
  exact hk

theorem stuck_missing (h : findChild (.group descriptor children) branch.name = none) :
    Stuck before (.group descriptor children) [branch] error ↔
      error = .unknownCommandPath (" ".intercalate (before ++ [descriptor.name]) ++ " " ++ branch.name) := by
  have hpath : " ".intercalate (before ++ [descriptor.name] ++ [branch.name]) =
      " ".intercalate (before ++ [descriptor.name]) ++ " " ++ branch.name := by
    rw [String.intercalate_append_of_ne_nil (by simp) (by simp), String.intercalate_singleton]
  rw [← hpath]
  refine stuck_noChild fun child hm hn => ?_
  exact absurd (beq_iff_eq.mpr hn.symm) (List.find?_eq_none.mp h child hm)

end Level

theorem resolveNested_stuck {before : List String} {descriptor : CommandDescriptor} {subs : List (SlashCommand D)}
    (hg : ValidGroup ValidSub descriptor subs) (submitted : List Submitted) (error : Error) :
    resolveNested (.group descriptor subs) (before ++ [descriptor.name]) submitted = .error error ↔
      Stuck before (.group descriptor subs) submitted error := by
  unfold resolveNested
  cases hb : onlyBranch submitted (before ++ [descriptor.name]) with
  | error refused =>
    obtain ⟨hmany, rfl⟩ := onlyBranch_refused hb
    rw [stuck_notOne hmany]
    exact error_iff
  | ok nested =>
    obtain rfl := onlyBranch_ok.mp hb
    dsimp only
    cases hf : findChild (.group descriptor subs) nested.name with
    | none =>
      rw [stuck_missing hf]
      exact error_iff
    | some leaf =>
      obtain ⟨hm, hn⟩ := findChild_some hf
      have hm : leaf ∈ subs := hm
      have hl : leaf.isLeaf = true := by
        cases hg.children leaf hm with
        | leaf => rfl
      have hkind : levelKind leaf = .subCommand := if_pos hl
      simp only [hl, Bool.not_true, Bool.false_or, bne_iff_ne]
      by_cases hk : nested.kind = .subCommand
      · rw [stuck_deeper hg.distinct hm hn (hk.trans hkind.symm)]
        simp [hk, not_stuck_leaf hl]
      · rw [stuck_mismatch hg.distinct hm hn (by rwa [hkind]), if_pos hk]
        exact error_iff

/-- The resolver refuses what is stuck in a registered tree, with the place as its error. -/
theorem resolve_stuck {command : SlashCommand D} (hv : Valid command) (submitted : List Submitted) (error : Error) :
    resolveCommand command submitted = .error error ↔ Stuck [] command submitted error := by
  cases hv with
  | leaf => exact ⟨fun h => (by cases h), fun h => absurd h (not_stuck_leaf rfl)⟩
  | @group descriptor children hg =>
    simp only [resolveCommand, SlashCommand.isLeaf_group, Bool.false_eq_true, if_false]
    cases hb : onlyBranch submitted [(SlashCommand.group descriptor children).descriptor.name] with
    | error refused =>
      obtain ⟨hmany, rfl⟩ := onlyBranch_refused hb
      rw [stuck_notOne hmany]
      exact error_iff
    | ok branch =>
      obtain rfl := onlyBranch_ok.mp hb
      dsimp only
      cases hf : findChild (.group descriptor children) branch.name with
      | none =>
        rw [stuck_missing hf]
        exact error_iff
      | some child =>
        obtain ⟨hm, hn⟩ := findChild_some hf
        have hm : child ∈ children := hm
        dsimp only
        by_cases hl : child.isLeaf = true
        · have hkind : levelKind child = .subCommand := if_pos hl
          rw [if_pos hl]
          by_cases hk : branch.kind = .subCommand
          · rw [stuck_deeper hg.distinct hm hn (hk.trans hkind.symm)]
            simp [hk, not_stuck_leaf hl]
          · rw [stuck_mismatch hg.distinct hm hn (by rwa [hkind]), if_pos (bne_iff_ne.mpr hk)]
            exact error_iff
        · have hkind : levelKind child = .subCommandGroup := if_neg hl
          rw [if_neg hl]
          by_cases hk : branch.kind = .subCommandGroup
          · rw [stuck_deeper hg.distinct hm hn (hk.trans hkind.symm), if_neg (by simp [hk])]
            cases hg.children child hm with
            | sub hs =>
              cases hs with
              | leaf => exact absurd rfl hl
            | group hs => exact resolveNested_stuck hs branch.options error
          · rw [stuck_mismatch hg.distinct hm hn (by rwa [hkind]), if_pos (bne_iff_ne.mpr hk)]
            exact error_iff

/-! ## Where an event is refused -/

structure OnCommand (framework : Framework D) (interaction : Interaction)
    (commandData : ApplicationCommandInteractionData) (command : SlashCommand D) : Prop where
  data : interaction.applicationCommandData = .ok (some commandData)
  chatInput : commandData.kind = .chatInput
  registered : framework.registry.get commandData.name = some command

def leafPath (command : SlashCommand D) (levels : List (String × ApplicationCommandOptionType)) : String :=
  " ".intercalate (command.descriptor.name :: levels.map (·.1))

inductive FocusFault (descriptor : CommandDescriptor) (scope : List Submitted) (path : String) : Error → Prop
  | focus : (∀ index, ¬ OnlyFocused scope index) → FocusFault descriptor scope path (.invalidAutocompleteFocus path)
  | option {index : Fin scope.length} : OnlyFocused scope index → ¬ Completable descriptor (scope.get index) →
      FocusFault descriptor scope path (.unknownAutocompleteOption path (scope.get index).name)

inductive InteractionFault (framework : Framework D) (interaction : Interaction) : Error → Prop
  | data {error : Error} : interaction.applicationCommandData = .error error → InteractionFault framework interaction error
  | noData : interaction.applicationCommandData = .ok none →
      InteractionFault framework interaction .missingApplicationCommandData
  | stuck {commandData : ApplicationCommandInteractionData} {command : SlashCommand D} {error : Error} :
      OnCommand framework interaction commandData command → Stuck [] command commandData.options error →
      InteractionFault framework interaction error
  | focus {commandData : ApplicationCommandInteractionData} {command leaf : SlashCommand D}
      {levels : List (String × ApplicationCommandOptionType)} {scope : List Submitted} {error : Error} :
      interaction.kind = .applicationCommandAutocomplete → OnCommand framework interaction commandData command →
      Selects command commandData.options levels leaf scope →
      FocusFault leaf.descriptor scope (leafPath command levels) error → InteractionFault framework interaction error

/-- What an event is refused with before anything is reserved for it. -/
inductive EventFault (framework : Framework D) : GatewayEvent → Error → Prop
  | undecoded (error : Error) : EventFault framework (.dispatch ⟨"INTERACTION_CREATE", .error error⟩) error
  | interaction {interaction : Interaction} {error : Error} :
      interaction.kind = .applicationCommand ∨ interaction.kind = .applicationCommandAutocomplete →
      InteractionFault framework interaction error → EventFault framework (interactionEvent interaction) error

inductive Executes (framework : Framework D) : GatewayEvent → Prop
  | command {interaction : Interaction} {commandData : ApplicationCommandInteractionData} {command leaf : SlashCommand D}
      {levels : List (String × ApplicationCommandOptionType)} {scope : List Submitted} :
      interaction.kind = .applicationCommand → OnCommand framework interaction commandData command →
      Selects command commandData.options levels leaf scope → Executes framework (interactionEvent interaction)
  | autocomplete {interaction : Interaction} {commandData : ApplicationCommandInteractionData}
      {command leaf : SlashCommand D} {levels : List (String × ApplicationCommandOptionType)} {scope : List Submitted}
      {index : Fin scope.length} :
      interaction.kind = .applicationCommandAutocomplete → OnCommand framework interaction commandData command →
      Selects command commandData.options levels leaf scope → OnlyFocused scope index →
      Completable leaf.descriptor (scope.get index) → Executes framework (interactionEvent interaction)

theorem focusedOptionIndex_error {options : List Submitted} {path : List String} {error : Error}
    (h : focusedOptionIndex options path = .error error) :
    (∀ index, ¬ OnlyFocused options index) ∧ error = .invalidAutocompleteFocus (" ".intercalate path) := by
  constructor
  · intro index hindex
    rw [(focusedOptionIndex_iff options path index).mpr hindex] at h
    cases h
  · unfold focusedOptionIndex at h
    split at h
    · cases h
    · cases h
      rfl

/-- Preparing a registered leaf's autocomplete fails exactly on its focus, or on the focused option. -/
theorem prepareAutocomplete_error {interaction : Interaction} {commandData : ApplicationCommandInteractionData}
    {resolved : ResolvedCommand D} {shardId : Option ShardId} {descriptor : CommandDescriptor}
    {kind : SlashCommandLeaf D} (hleaf : resolved.command = .leaf descriptor kind) (hl : ValidLeaf descriptor kind)
    (error : Error) :
    prepareAutocomplete interaction commandData resolved shardId = .error error ↔
      FocusFault resolved.command.descriptor resolved.options (" ".intercalate resolved.path) error := by
  cases hindex : focusedOptionIndex resolved.options resolved.path with
  | error refused =>
    obtain ⟨hnone, rfl⟩ := focusedOptionIndex_error hindex
    simp only [prepareAutocomplete, hindex]
    constructor
    · intro h
      cases h
      exact .focus hnone
    · intro h
      cases h with
      | focus => rfl
      | option hfocus => exact absurd hfocus (hnone _)
  | ok index =>
    have hfocus := (focusedOptionIndex_iff _ _ _).mp hindex
    by_cases hc : Completable resolved.command.descriptor (resolved.options.get index)
    · obtain ⟨prepared, hp, -⟩ := @prepareAutocomplete_routed D interaction commandData resolved shardId descriptor kind
        hleaf hl index hfocus (by rwa [hleaf] at hc)
      rw [hp]
      constructor
      · intro h
        cases h
      · intro h
        cases h with
        | focus hnone => exact absurd hfocus (hnone _)
        | option hother hunknown =>
          obtain rfl := hfocus.2 _ hother.1
          exact absurd hc hunknown
    · have hnone : resolved.command.descriptor.options.find? (fun option =>
          option.name == (resolved.options.get index).name && option.kind == (resolved.options.get index).kind &&
            option.autocomplete) = none := by
        rw [List.find?_eq_none]
        intro option hm hmatch
        simp only [Bool.and_eq_true, beq_iff_eq] at hmatch
        exact hc ⟨option, hm, hmatch.1.1, hmatch.1.2, hmatch.2⟩
      simp only [prepareAutocomplete, hindex, hnone]
      constructor
      · intro h
        cases h
        exact .option hfocus hc
      · intro h
        cases h with
        | focus hmany => exact absurd hfocus (hmany _)
        | option hother =>
          obtain rfl := hfocus.2 _ hother.1
          rfl

theorem OnCommand.unique {framework : Framework D} {interaction : Interaction}
    {first second : ApplicationCommandInteractionData} {command other : SlashCommand D}
    (h : OnCommand framework interaction first command) (h' : OnCommand framework interaction second other) :
    first = second ∧ command = other := by
  obtain rfl : first = second := by
    have hdata := h.data.symm.trans h'.data
    cases hdata
    rfl
  exact ⟨rfl, Option.some.inj (h.registered.symm.trans h'.registered)⟩

/-- On a registered command: stuck on the way, or refused at the leaf. -/
theorem interactionFault_iff {framework : Framework D} {interaction : Interaction}
    {commandData : ApplicationCommandInteractionData} {command : SlashCommand D}
    (hon : OnCommand framework interaction commandData command) {error : Error} :
    InteractionFault framework interaction error ↔
      Stuck [] command commandData.options error ∨
      interaction.kind = .applicationCommandAutocomplete ∧ ∃ levels leaf scope,
        Selects command commandData.options levels leaf scope ∧
        FocusFault leaf.descriptor scope (leafPath command levels) error := by
  constructor
  · intro h
    cases h with
    | data hdata =>
      rw [hon.data] at hdata
      cases hdata
    | noData hdata =>
      rw [hon.data] at hdata
      cases hdata
    | stuck hother hs =>
      obtain ⟨rfl, rfl⟩ := hon.unique hother
      exact .inl hs
    | focus hauto hother hs h =>
      obtain ⟨rfl, rfl⟩ := hon.unique hother
      exact .inr ⟨hauto, _, _, _, hs, h⟩
  · intro h
    rcases h with hs | ⟨hauto, levels, leaf, scope, hs, h⟩
    · exact .stuck hon hs
    · exact .focus hauto hon hs h

theorem prepareDispatch_command {framework : Framework D} {interaction : Interaction} (shardId : Option ShardId)
    {commandData : ApplicationCommandInteractionData} {command : SlashCommand D}
    (hkind : interaction.kind = .applicationCommand ∨ interaction.kind = .applicationCommandAutocomplete)
    (hon : OnCommand framework interaction commandData command) (error : Error) :
    prepareDispatch framework (interactionEvent interaction) shardId = .error error ↔
      InteractionFault framework interaction error := by
  have hv := CommandRegistry.valid hon.registered
  rw [prepareDispatch_registered hkind hon.data hon.chatInput hon.registered, interactionFault_iff hon,
    ← resolve_stuck hv]
  cases hr : resolveCommand command commandData.options with
  | error refused =>
    simp only [Except.bind, error_iff]
    constructor
    · intro h
      exact .inl h
    · intro h
      rcases h with h | ⟨-, levels, leaf, scope, hs, -⟩
      · exact h
      · rw [selects_resolve hv hs] at hr
        cases hr
  | ok resolved =>
    obtain ⟨levels, hs, hpath⟩ := resolve_selects hr
    obtain ⟨descriptor, kind, hleaf, hl⟩ := selects_validLeaf hv hs
    dsimp only [Except.bind]
    by_cases hauto : interaction.kind = .applicationCommandAutocomplete
    · rw [if_pos (beq_iff_eq.mpr hauto), prepareAutocomplete_error hleaf hl error, hpath]
      constructor
      · intro h
        exact .inr ⟨hauto, levels, _, _, hs, h⟩
      · intro h
        rcases h with h | ⟨-, levels', leaf, scope, hs', h⟩
        · cases h
        · rw [selects_resolve hv hs'] at hr
          cases hr
          rw [← hpath]
          exact h
    · obtain ⟨prepared, hp⟩ := @prepareCommand_leaf D framework interaction commandData resolved shardId descriptor kind
        hleaf
      rw [if_neg (by simpa using hauto), hp]
      constructor
      · intro h
        cases h
      · intro h
        rcases h with h | ⟨hkind, -⟩
        · cases h
        · exact absurd hkind hauto

inductive Preparation (framework : Framework D) (interaction : Interaction) : Except Error (PreparedDispatch D) → Prop
  | ignored : Preparation framework interaction (.ok .ignored)
  | unregistered (name : String) : Preparation framework interaction (.ok (.unregistered name))
  | data {error : Error} :
      interaction.kind = .applicationCommand ∨ interaction.kind = .applicationCommandAutocomplete →
      interaction.applicationCommandData = .error error → Preparation framework interaction (.error error)
  | noData : interaction.kind = .applicationCommand ∨ interaction.kind = .applicationCommandAutocomplete →
      interaction.applicationCommandData = .ok none →
      Preparation framework interaction (.error .missingApplicationCommandData)
  | resolved {commandData : ApplicationCommandInteractionData} {command : SlashCommand D}
      {prepared : Except Error (PreparedDispatch D)} :
      interaction.kind = .applicationCommand ∨ interaction.kind = .applicationCommandAutocomplete →
      OnCommand framework interaction commandData command → Preparation framework interaction prepared

theorem prepareInteraction_preparation (framework : Framework D) (interaction : Interaction) (shardId : Option ShardId) :
    Preparation framework interaction (prepareInteraction framework interaction shardId) := by
  unfold prepareInteraction
  split
  · exact .ignored
  rename_i hwanted
  have hkind : interaction.kind = .applicationCommand ∨ interaction.kind = .applicationCommandAutocomplete := by
    simpa only [Bool.and_eq_true, bne_iff_ne, ne_eq, not_and_or, not_not] using hwanted
  cases hdata : interaction.applicationCommandData with
  | error refused => exact .data hkind hdata
  | ok decoded =>
    cases decoded with
    | none => exact .noData hkind hdata
    | some commandData =>
      by_cases hchat : commandData.kind = .chatInput
      · cases hget : framework.registry.get commandData.name with
        | none =>
          simp only [hchat, hget, bne_self_eq_false, Bool.false_eq_true, if_false]
          exact .unregistered _
        | some command => exact .resolved hkind ⟨hdata, hchat, hget⟩
      · simp only [if_pos (bne_iff_ne.mpr hchat)]
        exact .ignored

theorem prepareInteraction_error (framework : Framework D) (interaction : Interaction) (shardId : Option ShardId)
    (error : Error) :
    prepareInteraction framework interaction shardId = .error error ↔
      (interaction.kind = .applicationCommand ∨ interaction.kind = .applicationCommandAutocomplete) ∧
        InteractionFault framework interaction error := by
  constructor
  · intro h
    have hway := prepareInteraction_preparation framework interaction shardId
    rw [h] at hway
    cases hway with
    | data hkind hdata => exact ⟨hkind, .data hdata⟩
    | noData hkind hdata => exact ⟨hkind, .noData hdata⟩
    | resolved hkind hon => exact ⟨hkind, (prepareDispatch_command shardId hkind hon error).mp h⟩
  · intro h
    obtain ⟨hkind, h⟩ := h
    have hwanted : ¬ (interaction.kind != .applicationCommand &&
        interaction.kind != .applicationCommandAutocomplete) = true := by
      simpa only [Bool.and_eq_true, bne_iff_ne, ne_eq, not_and_or, not_not] using hkind
    cases h with
    | data hdata => simp only [prepareInteraction, if_neg hwanted, hdata]
    | noData hdata => simp only [prepareInteraction, if_neg hwanted, hdata]
    | stuck hon hs => exact (prepareDispatch_command shardId hkind hon error).mpr (.stuck hon hs)
    | focus hauto hon hs h => exact (prepareDispatch_command shardId hkind hon error).mpr (.focus hauto hon hs h)

theorem prepareDispatch_event (framework : Framework D) (event : GatewayEvent) (shardId : Option ShardId) :
    prepareDispatch framework event shardId = .ok .ignored ∨
      (∃ error, event = .dispatch ⟨"INTERACTION_CREATE", .error error⟩) ∨
      ∃ interaction, event = interactionEvent interaction := by
  cases event with
  | other => exact .inl rfl
  | dispatch dispatch =>
    obtain ⟨name, typed⟩ := dispatch
    by_cases hname : name = "INTERACTION_CREATE"
    · subst hname
      cases typed with
      | error error => exact .inr (.inl ⟨error, rfl⟩)
      | ok typed =>
        cases typed with
        | interactionCreate interaction => exact .inr (.inr ⟨interaction, rfl⟩)
        | ready => exact .inl rfl
        | other => exact .inl rfl
    · exact .inl (if_pos (bne_iff_ne.mpr hname))

/-- `prepare_dispatch` fails exactly with the event's fault. -/
theorem prepareDispatch_error (framework : Framework D) (event : GatewayEvent) (shardId : Option ShardId)
    (error : Error) : prepareDispatch framework event shardId = .error error ↔ EventFault framework event error := by
  constructor
  · intro h
    rcases prepareDispatch_event framework event shardId with hpassed | ⟨refused, rfl⟩ | ⟨interaction, rfl⟩
    · cases hpassed.symm.trans h
    · cases h
      exact .undecoded error
    · obtain ⟨hkind, hfault⟩ := (prepareInteraction_error framework interaction shardId error).mp h
      exact .interaction hkind hfault
  · intro h
    cases h with
    | undecoded => rfl
    | interaction hkind hfault => exact (prepareInteraction_error framework _ shardId error).mpr ⟨hkind, hfault⟩

/-! ## What is executed -/

/-- On a registered command, what is not refused is executed. -/
theorem prepareDispatch_executes {framework : Framework D} {interaction : Interaction} {shardId : Option ShardId}
    {commandData : ApplicationCommandInteractionData} {command : SlashCommand D} {prepared : PreparedDispatch D}
    (hkind : interaction.kind = .applicationCommand ∨ interaction.kind = .applicationCommandAutocomplete)
    (hon : OnCommand framework interaction commandData command)
    (h : prepareDispatch framework (interactionEvent interaction) shardId = .ok prepared) :
    Executes framework (interactionEvent interaction) := by
  rw [prepareDispatch_registered hkind hon.data hon.chatInput hon.registered] at h
  cases hr : resolveCommand command commandData.options with
  | error refused =>
    rw [hr] at h
    cases h
  | ok resolved =>
    obtain ⟨levels, hs, -⟩ := resolve_selects hr
    rw [hr] at h
    dsimp only [Except.bind] at h
    split at h
    · rename_i hauto
      obtain ⟨⟨index, hfocus, hc⟩, -⟩ := prepareAutocomplete_inv h
      exact .autocomplete (beq_iff_eq.mp hauto) hon hs hfocus hc
    · rename_i hauto
      exact .command (hkind.resolve_right (by simpa using hauto)) hon hs

theorem executes_job (framework : Framework D) (event : GatewayEvent) (shardId : Option ShardId) :
    (∃ job, jobOf (prepareDispatch framework event shardId) = .ok job) ↔ Executes framework event := by
  constructor
  · intro h
    obtain ⟨job, hj⟩ := h
    rcases prepareDispatch_event framework event shardId with hpassed | ⟨refused, rfl⟩ | ⟨interaction, rfl⟩
    · rw [hpassed] at hj
      cases hj
    · cases hj
    · have hway := prepareInteraction_preparation framework interaction shardId
      cases hp : prepareDispatch framework (interactionEvent interaction) shardId with
      | error refused =>
        rw [hp] at hj
        cases hj
      | ok prepared =>
        rw [show prepareInteraction framework interaction shardId = .ok prepared from hp] at hway
        rw [hp] at hj
        cases hway with
        | ignored => cases hj
        | unregistered => cases hj
        | resolved hkind hon => exact prepareDispatch_executes hkind hon hp
  · intro h
    cases h with
    | @command interaction commandData command leaf levels scope hkind hon hs =>
      have hv := CommandRegistry.valid hon.registered
      obtain ⟨descriptor, kind, hleaf, -⟩ := selects_validLeaf hv hs
      rw [prepareDispatch_registered (.inl hkind) hon.data hon.chatInput hon.registered, selects_resolve hv hs]
      dsimp only [Except.bind]
      rw [if_neg (by simp [hkind]), hleaf]
      exact ⟨_, rfl⟩
    | @autocomplete interaction commandData command leaf levels scope index hkind hon hs hfocus hc =>
      have hv := CommandRegistry.valid hon.registered
      obtain ⟨descriptor, kind, hleaf, hl⟩ := selects_validLeaf hv hs
      rw [hleaf] at hc
      obtain ⟨prepared, hp, -⟩ := @prepareAutocomplete_routed D interaction commandData
        ⟨leaf, command.descriptor.name :: levels.map (·.1), scope⟩ shardId descriptor kind hleaf hl index hfocus hc
      rw [prepareDispatch_registered (.inr hkind) hon.data hon.chatInput hon.registered, selects_resolve hv hs]
      dsimp only [Except.bind]
      rw [if_pos (by simp [hkind]), hp]
      exact ⟨_, rfl⟩

/-! ## Over a whole run -/

/-- Whatever has been run, `dispatch` fails exactly with the fault of the event, before
    anything is reserved, or for what there is to execute outside an async runtime; full
    slots are no error. -/
theorem dispatch_error_exact (framework : Framework D) (moves : List Move) (w : World D)
    (h : run (step framework) (World.start framework false fun _ => false) moves = some w)
    (event : GatewayEvent) (shardId : Option ShardId) (inside : Bool) (error : Error) :
    (dispatch framework event shardId inside w.permits).1 = .error error ↔
      EventFault framework event error ∨ Executes framework event ∧ inside = false ∧ error = .noAsyncRuntime := by
  have hopen := open_run h
  rw [← prepareDispatch_error framework event shardId, ← executes_job framework event shardId]
  cases hp : prepareDispatch framework event shardId with
  | error refused => simp [dispatch, hp, jobOf]
  | ok prepared =>
    cases hj : jobOf (.ok prepared) with
    | error outcome =>
      have hnot : outcome ≠ .error error := by
        intro he
        subst he
        cases prepared <;> cases hj
      simp [dispatch, hp, hj, hnot]
    | ok job =>
      cases inside with
      | false => simp [dispatch, hp, hj, eq_comm]
      | true =>
        have hclosed := (@tryExecute_open D job w.permits hopen).2
        cases he : tryExecute job w.permits with
        | mk result permits =>
          rw [he] at hclosed
          cases result with
          | ok => simp [dispatch, hp, hj, he]
          | error refused =>
            cases refused with
            | noPermits => simp [dispatch, hp, hj, he, refusal]
            | closed => exact absurd rfl hclosed

/-- After one such event, `admin kick` is refused once more: `admin` only has `ban`. -/
theorem dispatch_error_exact_kick :
    let ban : SlashCommand Unit := .leaf ⟨"ban", "Ban a member", []⟩ { handler := fun _ data => (.ok (), data) }
    let admin : SlashCommand Unit := .group ⟨"admin", "Administration commands", []⟩ [ban]
    let commandData : ApplicationCommandInteractionData := ⟨"admin", .chatInput, [⟨"kick", .subCommand, none, [], none⟩]⟩
    let interaction : Interaction := ⟨1, 2, .applicationCommand, "token", none, none, none, none, .ok (some commandData)⟩
    let event := interactionEvent interaction
    ∃ (framework : Framework Unit) (w : World Unit), framework.registry.get "admin" = some admin ∧
      run (step framework) (World.start framework false fun _ => false) [.begin event none] = some w ∧
      (dispatch framework event none true w.permits).1 = .error (.unknownCommandPath "admin kick") := by
  intro ban admin commandData interaction event
  obtain ⟨framework, hget⟩ := exists_framework admin rfl
  have hstuck : Stuck [] admin commandData.options (.unknownCommandPath "admin kick") := by
    refine .noChild fun child hm hn => ?_
    cases List.mem_singleton.mp hm
    exact absurd hn (by decide)
  have hfault : EventFault framework event (.unknownCommandPath "admin kick") :=
    .interaction (.inl rfl) (.stuck ⟨rfl, rfl, hget⟩ hstuck)
  exact ⟨framework, _, hget, rfl,
    (dispatch_error_exact framework [.begin event none] _ rfl event none true _).mpr (.inl hfault)⟩

end GloamCommands.Dispatch
