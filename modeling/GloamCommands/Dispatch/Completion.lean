/-
  GloamCommands.Dispatch.Completion — from a completed option to the user's function.

  While a user types into an option that was published with `autocomplete`, Discord sends
  what has been typed so far, with that option focused. The choices that are sent back are
  what the user picks from, and what is picked comes back in the submission of the command.
  - `completion_round`: whatever is picked conforms to what was published, and reaches the
    function as it was offered.
-/

import GloamCommands.Dispatch.Submission
import GloamCommands.Lib.Collect

namespace GloamCommands.Dispatch

open Lib (F64 forall₂_mem_right)
open Execution (autocompleteResponseChoices autocompleteResponseChoices_iff Completes)
open Options (IdText OptionParameter Values Conforms Fills ScalarOf chosen Whole Assigned decimalIds decimalIds_lawful
  adapter)

variable {D : Type} {display : F64 → String}

/-- A submission in which one option is what was picked for it, and the others conform. -/
structure Picked (ids : IdText) (options : List ApplicationCommandOption) (entry : ApplicationCommandOption)
    (picked : ApplicationCommandInteractionValue) (submitted : List Submitted) : Prop where
  once : (submitted.map (·.name)).Nodup
  picked : ∀ option ∈ submitted, option.name = entry.name → option.kind = entry.kind ∧ option.value = some picked
  others : ∀ option ∈ submitted, option.name ≠ entry.name → ∃ other ∈ options, Fills ids other option
  required : ∀ other ∈ options, other.required = some true → ∃ option ∈ submitted, option.name = other.name

theorem completes_scalar (ids : IdText) {kind : ApplicationCommandOptionType} {value : AutocompleteChoiceValue}
    {sent : ApplicationCommandChoiceValue} {picked : ApplicationCommandInteractionValue} (h : Completes kind value sent)
    (hpicked : chosen sent picked = true) : ScalarOf ids kind picked := by
  cases h with
  | string => cases picked <;> trivial
  | integer => cases picked <;> trivial
  | number => cases picked <;> trivial

/-- What was offered conforms once it is picked: a completed option has no choices. -/
theorem picked_conforms {ids : IdText} {options : List ApplicationCommandOption} {entry : ApplicationCommandOption}
    {picked : ApplicationCommandInteractionValue} {submitted : List Submitted} (hentry : entry ∈ options)
    (hfree : entry.choices = []) (hscalar : ScalarOf ids entry.kind picked) (h : Picked ids options entry picked submitted) :
    Conforms ids options submitted := by
  refine ⟨h.once, fun option hoption => ?_, h.required⟩
  by_cases hname : option.name = entry.name
  · obtain ⟨hkind, hvalue⟩ := h.picked option hoption hname
    exact ⟨entry, hentry, hname, hkind, picked, hvalue, hscalar, fun hne => absurd hfree hne⟩
  · exact h.others option hoption hname

section Round

variable {framework : Framework D} {create : CreateApplicationCommand} {path : PayloadPath} {leaf : SlashCommand D}

/-- An option that was published with `autocomplete` is completed by the handler that is
    registered under its name, for its kind. -/
theorem published_completes (hcreate : create ∈ createCommands framework.registry) (hpath : path ∈ create.paths)
    (hleaf : framework.registry.leafAt (create.name :: path.levels.map (·.1)) = some leaf)
    {typed : List Submitted} {index : Fin typed.length} (hfocus : OnlyFocused typed index)
    {entry : ApplicationCommandOption} (hentry : entry ∈ path.scalars) (hname : (typed.get index).name = entry.name)
    (hkind : (typed.get index).kind = entry.kind) (hauto : entry.autocomplete = some true) (interaction : Interaction)
    (hcompleting : interaction.kind = .applicationCommandAutocomplete)
    (hdata : interaction.applicationCommandData = .ok (some ⟨create.name, .chatInput, follow path.levels typed⟩))
    (shardId : Option ShardId) :
    entry.choices = [] ∧ ∃ completing,
      prepareDispatch framework (interactionEvent interaction) shardId = .ok (.autocomplete completing) ∧
        completing.optionKind = entry.kind ∧ leaf.autocompleteHandler entry.name = some completing.handler := by
  obtain ⟨command, hget, hscalars, hresolves⟩ := payload_resolves hcreate hpath hleaf
  have hr := hresolves typed
  have hdispatch := @prepareDispatch_registered D framework interaction shardId
    ⟨create.name, .chatInput, follow path.levels typed⟩ command (.inr hcompleting) hdata rfl hget
  rw [hr, hcompleting] at hdispatch
  obtain ⟨descriptor, kind, hcommand, hvalid⟩ := resolve_validLeaf (CommandRegistry.valid hget) hr
  change leaf = _ at hcommand
  subst hcommand
  rw [hscalars] at hentry
  obtain ⟨option, hoption, rfl⟩ := List.mem_map.mp hentry
  have hcompletes : option.autocomplete = true := by
    cases ha : option.autocomplete with
    | true => rfl
    | false =>
      simp only [createScalarOption, ha] at hauto
      cases hauto
  obtain ⟨-, hchoices, -⟩ := hvalid.served option hoption hcompletes
  obtain ⟨completing, hcompleting, hrouted⟩ := @prepareAutocomplete_routed D interaction
    ⟨create.name, .chatInput, follow path.levels typed⟩
    ⟨.leaf descriptor kind, create.name :: path.levels.map (·.1), typed⟩ shardId descriptor kind rfl hvalid index hfocus
    ⟨option, hoption, hname.symm, hkind.symm, hcompletes⟩
  refine ⟨by simp only [createScalarOption, hchoices, List.map_nil], completing, hdispatch.trans hcompleting,
    hrouted.kind.trans hkind, ?_⟩
  obtain ⟨handler, hserves, hsame, -, heq⟩ := hrouted.handler
  obtain ⟨found, hfound, hfoundName, -, hsome⟩ := autocompleteHandler_some hvalid
    (List.mem_map.mpr ⟨handler, hserves, hsame.trans hname⟩)
  rw [hsome, heq]
  have hunique : found = handler :=
    List.inj_on_of_nodup_map hvalid.distinct hfound hserves (hfoundName.trans (hsame.trans hname).symm)
  rw [hunique]

/-- For every path of the payload that ends at a generated leaf, and every option there
    that was published with `autocomplete`: while it is focused, the interaction goes to
    its handler. If the handler's choices are sent, whichever is picked, the command that
    is then submitted conforms to what was published, and its function is called with the
    values that were submitted, unless a NUMBER came as an integer. -/
theorem completion_round {ids : IdText} (hids : ids.Lawful) (hcreate : create ∈ createCommands framework.registry)
    (hpath : path ∈ create.paths)
    (hleaf : framework.registry.leafAt (create.name :: path.levels.map (·.1)) = some leaf)
    {parameters : List (OptionParameter display)} {function : Context → Values parameters → CommandFuture D}
    (hgenerated : Generated ids parameters function leaf) {typed : List Submitted} {index : Fin typed.length}
    (hfocus : OnlyFocused typed index) {entry : ApplicationCommandOption} (hentry : entry ∈ path.scalars)
    (hname : (typed.get index).name = entry.name) (hkind : (typed.get index).kind = entry.kind)
    (hauto : entry.autocomplete = some true) (interaction : Interaction)
    (hcompleting : interaction.kind = .applicationCommandAutocomplete)
    (hdata : interaction.applicationCommandData = .ok (some ⟨create.name, .chatInput, follow path.levels typed⟩))
    (shardId : Option ShardId) :
    ∃ completing, prepareDispatch framework (interactionEvent interaction) shardId = .ok (.autocomplete completing) ∧
      completing.optionKind = entry.kind ∧ leaf.autocompleteHandler entry.name = some completing.handler ∧
      ∀ choices sent, autocompleteResponseChoices completing.optionKind choices = .ok sent →
        ∀ choice ∈ sent, ∀ picked, chosen choice.value picked = true →
        ∀ submitted, Picked ids path.scalars entry picked submitted →
        ∀ (invoked : Interaction) (invokedOn : Option ShardId), invoked.kind = .applicationCommand →
          invoked.applicationCommandData = .ok (some ⟨create.name, .chatInput, follow path.levels submitted⟩) →
          Conforms ids path.scalars submitted ∧
          ∃ prepared, prepareDispatch framework (interactionEvent invoked) invokedOn = .ok (.command prepared) ∧
            ((∀ p ∈ parameters, ¬ Whole submitted p) → ∃ values, Assigned ids submitted parameters values ∧
              ∀ data, prepared.handler prepared.context data = function prepared.context values data) := by
  obtain ⟨hfree, completing, hprepared, hoptionKind, hhandler⟩ := published_completes hcreate hpath hleaf hfocus hentry
    hname hkind hauto interaction hcompleting hdata shardId
  refine ⟨completing, hprepared, hoptionKind, hhandler, ?_⟩
  intro choices sent hsent choice hchoice picked hpicked submitted hsubmitted invoked invokedOn hcommand hinvoked
  obtain ⟨-, hall⟩ := (autocompleteResponseChoices_iff _ _ _).mp hsent
  obtain ⟨offered, -, haccepted⟩ := forall₂_mem_right hall hchoice
  have hscalar := completes_scalar ids haccepted.value hpicked
  rw [hoptionKind] at hscalar
  have hconforms := picked_conforms hentry hfree hscalar hsubmitted
  obtain ⟨prepared, hdispatch, hpublished, hoptions, hgiven⟩ :=
    generated_prepared hcreate hpath hleaf hgenerated submitted invoked hcommand hinvoked invokedOn
  refine ⟨hconforms, prepared, hdispatch, fun hwhole => ?_⟩
  rw [hpublished] at hconforms
  obtain ⟨values, hvalues, hassigned⟩ :=
    Options.extractAll_conforming hids hgenerated.published hgenerated.names hconforms hwhole
  refine ⟨values, hassigned, fun data => ?_⟩
  rw [hgiven, adapter, hoptions, hvalues]

end Round

/-- `Os` is completed to `Oslo`, which is picked. -/
theorem completion_round_city :
    let city : OptionParameter fun _ => "" := ⟨"city", "City", .string, true, .none, true, none, none, none, none⟩
    let function := fun (_ : Context) (_ : Values [city]) (data : Unit) => ((.ok () : Except Error Unit), data)
    let oslo : AutocompleteChoice := ⟨"Oslo", .string "oslo"⟩
    let weather : SlashCommand Unit := .leaf ⟨"weather", "Forecast", [city.descriptor decimalIds]⟩
      { handler := adapter decimalIds [city] function, autocomplete := [⟨"city", fun _ data => (.ok [oslo], data)⟩] }
    let typed : List Submitted := [⟨"city", .string, some (.string "Os"), [], some true⟩]
    let submitted : List Submitted := [⟨"city", .string, some (.string "oslo"), [], none⟩]
    let typing : Interaction :=
      ⟨1, 2, .applicationCommandAutocomplete, "token", none, none, none, none, .ok (some ⟨"weather", .chatInput, typed⟩)⟩
    let invoked : Interaction :=
      ⟨2, 2, .applicationCommand, "token", none, none, none, none, .ok (some ⟨"weather", .chatInput, submitted⟩)⟩
    ∃ (framework : Framework Unit) (completing : PreparedAutocomplete Unit) (prepared : PreparedCommand Unit)
      (values : Values [city]), framework.registry.get "weather" = some weather ∧
        prepareDispatch framework (interactionEvent typing) none = .ok (.autocomplete completing) ∧
        prepareDispatch framework (interactionEvent invoked) none = .ok (.command prepared) ∧
        Assigned decimalIds submitted [city] values ∧
        prepared.handler prepared.context () = function prepared.context values () := by
  intro city function oslo weather typed submitted typing invoked
  obtain ⟨framework, hget⟩ := exists_framework weather rfl
  have hiter : weather ∈ framework.registry.iter := CommandRegistry.mem_iter.mpr hget
  have hpath : (⟨[], publishedOptions weather⟩ : PayloadPath) ∈ (createCommand weather).paths := by
    rw [paths_leaf rfl]
    exact List.mem_singleton_self _
  have hleaf : framework.registry.leafAt ["weather"] = some weather :=
    leafAt_iff.mpr (List.mem_flatMap.mpr ⟨weather, hiter, List.mem_singleton_self _⟩)
  have hgenerated : Generated decimalIds [city] function weather := by
    refine ⟨rfl, rfl, fun p hp e he => ?_, List.nodup_singleton _⟩
    rw [List.mem_singleton.mp hp] at he
    cases he
  have hfocus : OnlyFocused typed ⟨0, Nat.one_pos⟩ := ⟨rfl, fun other _ => @Subsingleton.elim (Fin 1) _ other 0⟩
  obtain ⟨completing, hcompleting, hkind, -, hround⟩ := @completion_round Unit (fun _ => "") framework (createCommand weather)
    ⟨[], publishedOptions weather⟩ weather decimalIds decimalIds_lawful (List.mem_map_of_mem hiter) hpath hleaf [city] function
    hgenerated typed ⟨0, Nat.one_pos⟩ hfocus (createScalarOption (city.descriptor decimalIds)) (List.mem_singleton_self _)
    rfl rfl rfl typing rfl rfl none
  have hpicked : Picked decimalIds (publishedOptions weather) (createScalarOption (city.descriptor decimalIds))
      (.string "oslo") submitted := by
    refine ⟨by decide, fun option hoption _ => ?_, fun option hoption hother => ?_, fun other hother _ => ?_⟩
    · rw [List.mem_singleton.mp hoption]
      exact ⟨rfl, rfl⟩
    · rw [List.mem_singleton.mp hoption] at hother
      exact absurd rfl hother
    · rw [List.mem_singleton.mp hother]
      exact ⟨_, List.mem_singleton_self _, rfl⟩
  have hsent : autocompleteResponseChoices completing.optionKind [oslo] = .ok [⟨"Oslo", none, .string "oslo"⟩] := by
    rw [hkind]
    exact (autocompleteResponseChoices_iff _ _ _).mpr
      ⟨by decide, .cons ⟨by decide, by decide, rfl, rfl, .string (by decide)⟩ .nil⟩
  obtain ⟨-, prepared, hprepared, hcalled⟩ := hround [oslo] _ hsent _ (List.mem_singleton_self _)
    (.string "oslo") (by decide) submitted hpicked invoked none rfl rfl
  obtain ⟨values, hassigned, hfunction⟩ := hcalled fun p hp hw => by
    rw [List.mem_singleton.mp hp] at hw
    cases hw.1
  exact ⟨framework, completing, prepared, values, hget, hcompleting, hprepared, hassigned, hfunction ()⟩

end GloamCommands.Dispatch
