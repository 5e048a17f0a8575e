/-
  GloamCommands.Dispatch.Routes — the payload decides the routing (`prepare_dispatch`,
  `resolve_command` in crates/gloam-commands/src/framework.rs against registration.rs).

  A `Route` is what `prepare_dispatch` says of an event, less what its command executes:
  the command's name, its path, its options, the option that is completed. All of it
  depends on the declared trees alone, and so on what Discord has been told. Two builds of
  an application that publish the same commands route every event the same way, with the
  same errors, however their handlers, policies and hooks differ.
-/

import GloamCommands.Core.Declared
import GloamCommands.Dispatch.Builder
import GloamCommands.Dispatch.Routing

namespace GloamCommands.Dispatch

variable {D E : Type}

inductive Route where
  | ignored
  | unregistered (name : String)
  | command (commandName : String) (context : Context)
  | autocomplete (commandName : String) (optionKind : ApplicationCommandOptionType) (context : AutocompleteContext)

def PreparedDispatch.route : PreparedDispatch D → Route
  | .ignored => .ignored
  | .unregistered name => .unregistered name
  | .command prepared => .command prepared.commandName prepared.context
  | .autocomplete prepared => .autocomplete prepared.commandName prepared.optionKind prepared.context

/-! ## Resolving -/

def place (resolved : ResolvedCommand D) : Declared × List String × List Submitted :=
  (declared resolved.command, resolved.path, resolved.options)

theorem findChild_same {a : SlashCommand D} {b : SlashCommand E} (h : declared a = declared b) (name : String) :
    (findChild a name).map declared = (findChild b name).map declared := by
  have hfind : ∀ {F : Type} (command : SlashCommand F), (findChild command name).map declared =
      (command.children.map declared).find? fun child => child.descriptor.name == name := by
    intro F command
    rw [List.find?_map]
    unfold findChild
    congr 2
    funext child
    simp
  rw [hfind, hfind, (declared_same h).2.2]

theorem findChild_cases {a : SlashCommand D} {b : SlashCommand E} (h : declared a = declared b) (name : String) :
    (findChild a name = none ∧ findChild b name = none) ∨
      ∃ child other, findChild a name = some child ∧ findChild b name = some other ∧ declared child = declared other := by
  have hsame := findChild_same h name
  cases ha : findChild a name with
  | none =>
    rw [ha, Option.map_none] at hsame
    exact .inl ⟨rfl, Option.map_eq_none_iff.mp hsame.symm⟩
  | some child =>
    rw [ha, Option.map_some] at hsame
    obtain ⟨other, hb, hdeclared⟩ := Option.map_eq_some_iff.mp hsame.symm
    exact .inr ⟨child, other, rfl, hb, hdeclared.symm⟩

theorem resolveNested_same {a : SlashCommand D} {b : SlashCommand E} (h : declared a = declared b) (path : List String)
    (options : List Submitted) :
    (resolveNested a path options).map place = (resolveNested b path options).map place := by
  unfold resolveNested
  cases onlyBranch options path with
  | error error => rfl
  | ok nested =>
    dsimp only
    rcases findChild_cases h nested.name with ⟨ha, hb⟩ | ⟨leaf, other, ha, hb, hsame⟩
    · rw [ha, hb]
      rfl
    · obtain ⟨hdescriptor, hleaf, -⟩ := declared_same hsame
      rw [ha, hb]
      dsimp only
      rw [hdescriptor, hleaf]
      split
      · rfl
      · simp only [Except.map, place, hsame]

theorem resolveCommand_same {a : SlashCommand D} {b : SlashCommand E} (h : declared a = declared b)
    (submitted : List Submitted) :
    (resolveCommand a submitted).map place = (resolveCommand b submitted).map place := by
  obtain ⟨hdescriptor, hleaf, -⟩ := declared_same h
  unfold resolveCommand
  dsimp only
  rw [hdescriptor, hleaf]
  split
  · simp only [Except.map, place, h]
  · cases onlyBranch submitted [b.descriptor.name] with
    | error error => rfl
    | ok branch =>
      dsimp only
      rcases findChild_cases h branch.name with ⟨ha, hb⟩ | ⟨child, other, ha, hb, hsame⟩
      · rw [ha, hb]
        rfl
      · obtain ⟨hname, hchild, -⟩ := declared_same hsame
        rw [ha, hb]
        dsimp only
        rw [hname, hchild]
        split
        · split
          · rfl
          · simp only [Except.map, place, hsame]
        · split
          · rfl
          · exact resolveNested_same hsame _ _

/-! ## Preparing -/

theorem prepareCommand_route {framework : Framework D} {interaction : Interaction}
    {commandData : ApplicationCommandInteractionData} {resolved : ResolvedCommand D} (shardId : Option ShardId)
    (hleaf : resolved.command.isLeaf = true) :
    (prepareCommand framework interaction commandData resolved shardId).map PreparedDispatch.route =
      .ok (.command resolved.command.descriptor.name
        ⟨interaction, commandData, resolved.path, resolved.options, shardId⟩) := by
  cases hcommand : resolved.command with
  | leaf descriptor kind =>
    simp only [prepareCommand, hcommand, SlashCommand.handler, SlashCommand.policy]
    rfl
  | group descriptor children =>
    rw [hcommand] at hleaf
    cases hleaf

/-- The option that is completed, if one can be. -/
def completedOption (descriptor : CommandDescriptor) (focused : Submitted) : Option CommandOptionDescriptor :=
  descriptor.options.find? fun option => option.name == focused.name && option.kind == focused.kind && option.autocomplete

/-- A valid leaf has a handler for every option it can complete. -/
theorem completed_handler {descriptor : CommandDescriptor} {kind : SlashCommandLeaf D} (h : ValidLeaf descriptor kind)
    {focused : Submitted} {option : CommandOptionDescriptor} (hoption : completedOption descriptor focused = some option) :
    ∃ handler, (SlashCommand.leaf descriptor kind).autocompleteHandler option.name = some handler := by
  have hauto : option.autocomplete = true := by
    have hmatch := List.find?_some hoption
    simp only [Bool.and_eq_true] at hmatch
    exact hmatch.2
  obtain ⟨-, -, hserved⟩ := h.served option (List.mem_of_find?_eq_some hoption) hauto
  obtain ⟨entry, -, -, -, hhandler⟩ := autocompleteHandler_some h hserved
  exact ⟨entry.handler, hhandler⟩

/-- On valid leaves declared alike the same option is completed. -/
theorem prepareAutocomplete_same {interaction : Interaction} {commandData : ApplicationCommandInteractionData}
    {a : ResolvedCommand D} {b : ResolvedCommand E} (shardId : Option ShardId) (hsame : place a = place b)
    (ha : ∃ descriptor kind, a.command = .leaf descriptor kind ∧ ValidLeaf descriptor kind)
    (hb : ∃ descriptor kind, b.command = .leaf descriptor kind ∧ ValidLeaf descriptor kind) :
    (prepareAutocomplete interaction commandData a shardId).map PreparedDispatch.route =
      (prepareAutocomplete interaction commandData b shardId).map PreparedDispatch.route := by
  obtain ⟨command, path, options⟩ := a
  obtain ⟨other, otherPath, otherOptions⟩ := b
  obtain ⟨hdeclared, hpair⟩ := Prod.mk.inj hsame
  obtain ⟨hpath, hoptions⟩ := Prod.mk.inj hpair
  change path = otherPath at hpath
  change options = otherOptions at hoptions
  subst hpath hoptions
  obtain ⟨descriptor, kind, rfl, hvalid⟩ := ha
  obtain ⟨otherDescriptor, otherKind, rfl, hother⟩ := hb
  obtain rfl : descriptor = otherDescriptor := (declared_same hdeclared).1
  unfold prepareAutocomplete
  dsimp only
  cases focusedOptionIndex options path with
  | error error => rfl
  | ok index =>
    dsimp only
    cases hoption : completedOption descriptor (options.get index) with
    | none =>
      unfold completedOption at hoption
      simp only [SlashCommand.descriptor_leaf, hoption]
      rfl
    | some option =>
      obtain ⟨handler, hhandler⟩ := completed_handler hvalid hoption
      obtain ⟨handler', hhandler'⟩ := completed_handler hother hoption
      unfold completedOption at hoption
      simp only [SlashCommand.descriptor_leaf, hoption, hhandler, hhandler']
      rfl

theorem get_find (registry : CommandRegistry D) (name : String) :
    registry.get name = registry.iter.find? (·.descriptor.name == name) := by
  cases hget : registry.get name with
  | none =>
    symm
    rw [List.find?_eq_none]
    intro command hcommand hname
    rw [CommandRegistry.mem_iter, beq_iff_eq.mp hname, hget] at hcommand
    cases hcommand
  | some command =>
    have hname : command.descriptor.name = name := registry.keyed hget
    subst hname
    exact (Lib.find_key registry.iter_nodup (CommandRegistry.mem_iter.mpr hget)).symm

theorem get_same {first : CommandRegistry D} {second : CommandRegistry E}
    (h : first.iter.map declared = second.iter.map declared) (name : String) :
    (first.get name).map declared = (second.get name).map declared := by
  have hfind : ∀ {F : Type} (registry : CommandRegistry F), (registry.get name).map declared =
      (registry.iter.map declared).find? fun command => command.descriptor.name == name := by
    intro F registry
    rw [get_find, List.find?_map]
    congr 2
    funext command
    simp
  rw [hfind, hfind, h]

theorem prepareInteraction_same {first : Framework D} {second : Framework E}
    (h : first.registry.iter.map declared = second.registry.iter.map declared) (interaction : Interaction)
    (shardId : Option ShardId) :
    (prepareInteraction first interaction shardId).map PreparedDispatch.route =
      (prepareInteraction second interaction shardId).map PreparedDispatch.route := by
  unfold prepareInteraction
  split
  · rfl
  cases interaction.applicationCommandData with
  | error error => rfl
  | ok data =>
    cases data with
    | none => rfl
    | some commandData =>
      dsimp only
      split
      · rfl
      have hget := get_same h commandData.name
      cases hfirst : first.registry.get commandData.name with
      | none =>
        rw [hfirst, Option.map_none] at hget
        rw [Option.map_eq_none_iff.mp hget.symm]
        rfl
      | some command =>
        rw [hfirst, Option.map_some] at hget
        obtain ⟨other, hsecond, hdeclared⟩ := Option.map_eq_some_iff.mp hget.symm
        rw [hsecond]
        dsimp only
        have hresolve := resolveCommand_same hdeclared.symm commandData.options
        cases ha : resolveCommand command commandData.options with
        | error error =>
          cases hb : resolveCommand other commandData.options with
          | error error' =>
            rw [ha, hb] at hresolve
            cases hresolve
            rfl
          | ok b =>
            rw [ha, hb] at hresolve
            cases hresolve
        | ok a =>
          cases hb : resolveCommand other commandData.options with
          | error error =>
            rw [ha, hb] at hresolve
            cases hresolve
          | ok b =>
            rw [ha, hb] at hresolve
            have hplace : place a = place b := Except.ok.inj hresolve
            have hleafA := resolve_validLeaf (CommandRegistry.valid hfirst) ha
            have hleafB := resolve_validLeaf (CommandRegistry.valid hsecond) hb
            dsimp only
            split
            · exact prepareAutocomplete_same shardId hplace hleafA hleafB
            · obtain ⟨descriptor, kind, hcommand, -⟩ := hleafA
              obtain ⟨descriptor', kind', hcommand', -⟩ := hleafB
              rw [prepareCommand_route shardId (by rw [hcommand]; rfl), prepareCommand_route shardId (by rw [hcommand']; rfl)]
              obtain ⟨hdeclared, hpair⟩ := Prod.mk.inj hplace
              obtain ⟨hpath, hoptions⟩ := Prod.mk.inj hpair
              rw [(declared_same hdeclared).1, hpath, hoptions]

/-- Two frameworks that publish the same commands route every event the same way, and
    refuse the same ones with the same errors. -/
theorem payload_decides_routes (first : Framework D) (second : Framework E)
    (h : createCommands first.registry = createCommands second.registry) (event : GatewayEvent)
    (shardId : Option ShardId) :
    (prepareDispatch first event shardId).map PreparedDispatch.route =
      (prepareDispatch second event shardId).map PreparedDispatch.route := by
  have hdeclared : first.registry.iter.map declared = second.registry.iter.map declared := by
    rw [← readCommands_create, ← readCommands_create, h]
  unfold prepareDispatch
  cases event with
  | other => rfl
  | dispatch dispatch =>
    dsimp only
    split
    · rfl
    cases dispatch.typed with
    | error error => rfl
    | ok typed =>
      cases typed with
      | interactionCreate interaction => exact prepareInteraction_same hdeclared interaction shardId
      | _ => rfl

/-- `ping` before and after its handler, its policy and the application's state are replaced. -/
theorem payload_decides_routes_ping :
    let ping : SlashCommand Unit := .leaf ⟨"ping", "Check bot responsiveness", []⟩ { handler := fun _ data => (.ok (), data) }
    let counted : SlashCommand Nat :=
      .leaf ⟨"ping", "Check bot responsiveness", []⟩
        { handler := fun _ data => (.ok (), data + 1), policy := { maxConcurrency := some 1 } }
    ∃ (first : Framework Unit) (second : Framework Nat), first.registry.iter = [ping] ∧ second.registry.iter = [counted] ∧
      ∀ event shardId, (prepareDispatch first event shardId).map PreparedDispatch.route =
        (prepareDispatch second event shardId).map PreparedDispatch.route := by
  intro ping counted
  have hbuild : ∀ {F : Type} (command : SlashCommand F), validateHierarchy command = .ok () →
      ∃ framework : Framework F, framework.registry.iter = [command] := by
    intro F command hvalid
    obtain ⟨registry, hregistry⟩ := (insertAll_iff CommandRegistry.new [command]).mpr
      ⟨fun c hc => ⟨by rw [List.mem_singleton.mp hc]; exact (validateHierarchy_iff command).mp hvalid, rfl⟩, List.nodup_singleton _⟩
    exact ⟨⟨registry, .none, 1, [], [], none, Nat.one_ne_zero⟩, List.perm_singleton.mp (insertAll_iter hregistry)⟩
  obtain ⟨first, hfirst⟩ := hbuild ping rfl
  obtain ⟨second, hsecond⟩ := hbuild counted rfl
  refine ⟨first, second, hfirst, hsecond, fun event shardId => payload_decides_routes first second ?_ event shardId⟩
  simp only [createCommands, hfirst, hsecond]
  rfl

end GloamCommands.Dispatch
