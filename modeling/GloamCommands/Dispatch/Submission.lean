/-
  GloamCommands.Dispatch.Submission — from the published schema to the user's function.

  The macro registers a leaf and generates its handler from one parameter list. What
  Discord was sent for the leaf decides what it may submit; what it submits is routed back
  to the leaf, extracted, and given to the function.
  - `conforming_submission`: the whole way round, for every path of the payload.
-/

import GloamCommands.Dispatch.Routing
import GloamCommands.Options.Conformance

namespace GloamCommands.Dispatch

open Lib (F64)
open Options (IdText OptionParameter ParameterType Values adapter publishedParameters Conforms Whole Assigned
  decimalIds decimalIds_lawful)

variable {D : Type} {display : F64 → String}

/-- A leaf as `#[command]` generates it for `function`. -/
structure Generated (ids : IdText) (parameters : List (OptionParameter display))
    (function : Context → Values parameters → CommandFuture D) (leaf : SlashCommand D) : Prop where
  options : leaf.descriptor.options = parameters.map (·.descriptor ids)
  handler : leaf.handler = some (adapter ids parameters function)
  published : ∀ p ∈ parameters, p.Published
  names : (parameters.map (·.name)).Nodup

section Round

variable {framework : Framework D} {create : CreateApplicationCommand} {path : PayloadPath} {leaf : SlashCommand D}

/-- A path of the payload, submitted with any options, resolves to the leaf on the path. -/
theorem payload_resolves (hcreate : create ∈ createCommands framework.registry) (hpath : path ∈ create.paths)
    (hleaf : framework.registry.leafAt (create.name :: path.levels.map (·.1)) = some leaf) :
    ∃ command, framework.registry.get create.name = some command ∧ path.scalars = publishedOptions leaf ∧
      ∀ opts, resolveCommand command (follow path.levels opts) =
        .ok ⟨leaf, create.name :: path.levels.map (·.1), opts⟩ := by
  obtain ⟨command, hm, rfl⟩ := List.mem_map.mp hcreate
  have hget := CommandRegistry.mem_iter.mp hm
  have hv := CommandRegistry.valid hget
  obtain ⟨-, found, hfound, hscalars, hselects⟩ := path_selects hv hpath
  have hat := leafAt_iff.mpr (List.mem_flatMap.mpr ⟨command, hm, hfound⟩)
  obtain rfl : leaf = found := Option.some.inj (hleaf.symm.trans hat)
  exact ⟨command, hget, hscalars, fun opts => selects_resolve hv (hselects opts)⟩

theorem Generated.scalars {ids : IdText} {parameters : List (OptionParameter display)}
    {function : Context → Values parameters → CommandFuture D} (h : Generated ids parameters function leaf) :
    publishedOptions leaf = publishedParameters ids parameters := by
  rw [publishedOptions, h.options, List.map_map]
  rfl

/-- Whatever is submitted on the path reaches the handler that was generated for it. -/
theorem generated_prepared {ids : IdText} (hcreate : create ∈ createCommands framework.registry)
    (hpath : path ∈ create.paths)
    (hleaf : framework.registry.leafAt (create.name :: path.levels.map (·.1)) = some leaf)
    {parameters : List (OptionParameter display)} {function : Context → Values parameters → CommandFuture D}
    (hgenerated : Generated ids parameters function leaf) (submitted : List Submitted) (interaction : Interaction)
    (hkind : interaction.kind = .applicationCommand)
    (hdata : interaction.applicationCommandData =
      .ok (some ⟨create.name, .chatInput, follow path.levels submitted⟩)) (shardId : Option ShardId) :
    ∃ prepared, prepareDispatch framework (interactionEvent interaction) shardId = .ok (.command prepared) ∧
      path.scalars = publishedParameters ids parameters ∧ prepared.context.commandOptions = submitted ∧
      prepared.handler = adapter ids parameters function := by
  obtain ⟨command, hget, hscalars, hresolves⟩ := payload_resolves hcreate hpath hleaf
  have hdispatch := @prepareDispatch_registered D framework interaction shardId
    ⟨create.name, .chatInput, follow path.levels submitted⟩ command (.inl hkind) hdata rfl hget
  rw [hresolves submitted, hkind] at hdispatch
  have hpublished : path.scalars = publishedParameters ids parameters := hscalars.trans hgenerated.scalars
  cases leaf with
  | group descriptor children => cases hgenerated.handler
  | leaf descriptor kind => exact ⟨_, hdispatch, hpublished, rfl, Option.some.inj hgenerated.handler⟩

/-- For every path of the payload that ends at a generated leaf, and every submission that
    conforms to what was published there: dispatch prepares the leaf's handler, which calls
    the function with exactly the values that were submitted, unless a NUMBER came as an
    integer. The first parameter of those is then refused, and the function is not called. -/
theorem conforming_submission {ids : IdText} (hids : ids.Lawful) (hcreate : create ∈ createCommands framework.registry)
    (hpath : path ∈ create.paths)
    (hleaf : framework.registry.leafAt (create.name :: path.levels.map (·.1)) = some leaf)
    {parameters : List (OptionParameter display)} {function : Context → Values parameters → CommandFuture D}
    (hgenerated : Generated ids parameters function leaf) {submitted : List Submitted}
    (hc : Conforms ids path.scalars submitted) (interaction : Interaction) (hkind : interaction.kind = .applicationCommand)
    (hdata : interaction.applicationCommandData =
      .ok (some ⟨create.name, .chatInput, follow path.levels submitted⟩)) (shardId : Option ShardId) :
    ∃ prepared, prepareDispatch framework (interactionEvent interaction) shardId = .ok (.command prepared) ∧
      ((∀ p ∈ parameters, ¬ Whole submitted p) → ∃ values, Assigned ids submitted parameters values ∧
        ∀ data, prepared.handler prepared.context data = function prepared.context values data) ∧
      ∀ before p after, parameters = before ++ p :: after → (∀ q ∈ before, ¬ Whole submitted q) → Whole submitted p →
        ∀ data, prepared.handler prepared.context data = (.error (.invalidOption p.name "f64"), data) := by
  obtain ⟨prepared, hdispatch, hscalars, hoptions, hhandler⟩ :=
    generated_prepared hcreate hpath hleaf hgenerated submitted interaction hkind hdata shardId
  rw [hscalars] at hc
  refine ⟨prepared, hdispatch, fun hw => ?_, fun before p after hsplit hbefore hwhole data => ?_⟩
  · obtain ⟨values, hvalues, hassigned⟩ := Options.extractAll_conforming hids hgenerated.published hgenerated.names hc hw
    refine ⟨values, hassigned, fun data => ?_⟩
    rw [hhandler, adapter, hoptions, hvalues]
  · have herror := Options.conforming_refused hids hgenerated.published hgenerated.names hc hsplit hbefore hwhole
    rw [hhandler, adapter, hoptions, herror]

end Round

/-- `report` with a text and an optional member; the member comes first. -/
theorem conforming_submission_report :
    let plain := fun (name : String) (type : ParameterType fun _ => "") (required : Bool) =>
      (⟨name, "", type, required, .none, false, none, none, none, none⟩ : OptionParameter fun _ => "")
    let parameters := [plain "text" .string true, plain "target" (.id .user) false]
    let function := fun (_ : Context) (_ : Values parameters) (data : Unit) => ((.ok () : Except Error Unit), data)
    let report : SlashCommand Unit := .leaf ⟨"report", "Report", parameters.map (·.descriptor decimalIds)⟩
      { handler := adapter decimalIds parameters function }
    let submitted : List Submitted :=
      [⟨"target", .user, some (.string "123"), [], none⟩, ⟨"text", .string, some (.string "spam"), [], none⟩]
    let interaction : Interaction :=
      ⟨1, 2, .applicationCommand, "token", none, none, none, none, .ok (some ⟨"report", .chatInput, submitted⟩)⟩
    ∃ (framework : Framework Unit) (prepared : PreparedCommand Unit) (values : Values parameters),
      framework.registry.get "report" = some report ∧
        prepareDispatch framework (interactionEvent interaction) none = .ok (.command prepared) ∧
        Assigned decimalIds submitted parameters values ∧
        prepared.handler prepared.context () = function prepared.context values () := by
  intro plain parameters function report submitted interaction
  obtain ⟨framework, hget⟩ := exists_framework report rfl
  have hiter : report ∈ framework.registry.iter := CommandRegistry.mem_iter.mpr hget
  have hpath : (⟨[], publishedOptions report⟩ : PayloadPath) ∈ (createCommand report).paths := by
    rw [paths_leaf rfl]
    exact List.mem_singleton_self _
  have hleaf : framework.registry.leafAt ["report"] = some report :=
    leafAt_iff.mpr (List.mem_flatMap.mpr ⟨report, hiter, List.mem_singleton_self _⟩)
  have hpublished : ∀ p ∈ parameters, p.Published := by
    intro p hp e he
    rcases List.mem_cons.mp hp with rfl | hp
    · cases he
    · rw [List.mem_singleton.mp hp] at he
      cases he
  have hgenerated : Generated decimalIds parameters function report := ⟨rfl, rfl, hpublished, by decide⟩
  have hconforms : Conforms decimalIds (publishedOptions report) submitted := by
    refine ⟨by decide, fun option hm => ?_, fun entry hm hr => ?_⟩
    · rcases List.mem_cons.mp hm with rfl | hm
      · refine ⟨_, List.mem_cons_of_mem _ (List.mem_singleton_self _), rfl, rfl, _, rfl, ⟨123, rfl⟩, fun hne => ?_⟩
        exact absurd rfl hne
      · rw [List.mem_singleton.mp hm]
        exact ⟨_, List.mem_cons_self .., rfl, rfl, _, rfl, trivial, fun hne => absurd rfl hne⟩
    · rcases List.mem_cons.mp hm with rfl | hm
      · exact ⟨_, List.mem_cons_of_mem _ (List.mem_singleton_self _), rfl⟩
      · rw [List.mem_singleton.mp hm] at hr
        cases hr
  obtain ⟨prepared, hprepared, hcalled, -⟩ := conforming_submission decimalIds_lawful
    (List.mem_map_of_mem hiter) hpath hleaf hgenerated hconforms interaction rfl rfl none
  have hwhole : ∀ p ∈ parameters, ¬ Whole submitted p := by
    intro p hp hw
    rcases List.mem_cons.mp hp with rfl | hp
    · cases hw.1
    · rw [List.mem_singleton.mp hp] at hw
      cases hw.1
  obtain ⟨values, hassigned, hfunction⟩ := hcalled hwhole
  exact ⟨framework, prepared, values, hget, hprepared, hassigned, hfunction ()⟩

end GloamCommands.Dispatch
