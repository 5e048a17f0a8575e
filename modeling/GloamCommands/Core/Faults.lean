/-
  GloamCommands.Core.Faults — which error a refused tree is refused with
  (`validate_hierarchy`, `validate_children` and `validate_leaf` in
  crates/gloam-commands/src/registry.rs).

  `sites` lists what the checks look at, in the order of the tree: at each child its name
  among its siblings, then the group itself and its children, or the leaf's limit, its
  handlers and its autocomplete options. `Fault` says at each site, from the site alone,
  what is wrong there and with which error, whose path is the names from the root.
  - `validateHierarchy_reports`: the checks return the error of the first faulty site.
  - `sites_valid`: a tree is Discord-native exactly if no site has a fault.
-/

import GloamCommands.Core.Registry
import GloamCommands.Lib.Scan

namespace GloamCommands

open Lib (Faultless Reports reports_nil reports_fault reports_cons reports_append reports_stop reports_ok)

variable {D : Type}

/-! ## Sites -/

/-- What is looked at, with what it is looked at beside. -/
inductive Subject (D : Type) where
  /-- A child, after the siblings of these names. -/
  | sibling (earlier : List String)
  | group (descriptor : CommandDescriptor) (children : List (SlashCommand D))
  | policy (policy : CommandPolicy D)
  /-- The handler of an option, after the handlers of these. -/
  | handler (options : List CommandOptionDescriptor) (earlier : List String) (option : String)
  /-- An autocomplete option, beside the handlers of these. -/
  | option (handlers : List String) (option : CommandOptionDescriptor)
  /-- A root that is valid, after the roots of these names. -/
  | root (earlier : List String)

/-- A subject at a command: the names above the command, and its own. -/
structure Site (D : Type) where
  above : List String
  name : String
  subject : Subject D

namespace Site

def path (site : Site D) : String := formatPath site.above site.name

end Site

/-- Where Discord has groups, and what they hold: children and nothing else, at the root
    or under it, and under it leaves only. -/
structure Nestable (above : List String) (descriptor : CommandDescriptor) (children : List (SlashCommand D)) : Prop where
  noOptions : descriptor.options = []
  nonempty : children ≠ []
  depth : above.length ≤ 1
  leaves : above ≠ [] → ∀ child ∈ children, child.isLeaf = true

/-- The handler's option is the first of its name, completes, and has no other handler
    before. -/
def Serves (options : List CommandOptionDescriptor) (earlier : List String) (name : String) : Prop :=
  name ∉ earlier ∧ ∃ option, options.find? (·.name == name) = some option ∧ option.autocomplete = true

/-- Discord completes the kind, without choices, and someone does. -/
structure Completed (handlers : List String) (option : CommandOptionDescriptor) : Prop where
  kind : option.kind.completes = true
  choices : option.choices = []
  served : option.name ∈ handlers

namespace Site

def Sound (site : Site D) : Prop :=
  match site.subject with
  | .sibling earlier => site.name ∉ earlier
  | .group descriptor children => Nestable site.above descriptor children
  | .policy policy => policy.maxConcurrency ≠ some 0
  | .handler options earlier option => Serves options earlier option
  | .option handlers option => Completed handlers option
  | .root earlier => site.name ∉ earlier

def error (site : Site D) : Error :=
  match site.subject with
  | .sibling _ => .duplicateCommandPath site.path
  | .group _ _ => .invalidCommandHierarchy site.path
  | .policy _ => .invalidCommandPolicy site.path
  | .handler _ _ option => .invalidAutocompleteConfiguration (site.path ++ " " ++ option)
  | .option _ option => .invalidAutocompleteConfiguration (site.path ++ " " ++ option.name)
  | .root _ => .duplicateCommand site.name

end Site

def Fault (site : Site D) (error : Error) : Prop := ¬ site.Sound ∧ error = site.error

theorem faultless_iff (site : Site D) : Faultless Fault site ↔ site.Sound := by
  constructor
  · intro h
    by_contra hsound
    exact h site.error ⟨hsound, rfl⟩
  · intro h error hfault
    exact hfault.1 h

theorem fault_error (site : Site D) (error error' : Error) (h : Fault site error) (h' : Fault site error') :
    error = error' := by
  rw [h.2, h'.2]

/-! ## The sites of a tree -/

def handlerSites (above : List String) (name : String) (options : List CommandOptionDescriptor) (earlier : List String) :
    List (AutocompleteHandlerDescriptor D) → List (Site D)
  | [] => []
  | handler :: rest =>
    ⟨above, name, .handler options earlier handler.optionName⟩ ::
      handlerSites above name options (handler.optionName :: earlier) rest

def optionSites (above : List String) (name : String) (handlers : List String) (options : List CommandOptionDescriptor) :
    List (Site D) :=
  (options.filter (·.autocomplete)).map fun option => ⟨above, name, .option handlers option⟩

def leafSites (above : List String) (descriptor : CommandDescriptor) (kind : SlashCommandLeaf D) : List (Site D) :=
  ⟨above, descriptor.name, .policy kind.policy⟩ ::
    (handlerSites above descriptor.name descriptor.options [] kind.autocomplete ++
      optionSites above descriptor.name (kind.autocomplete.map (·.optionName)) descriptor.options)

mutual

def sites (above : List String) : SlashCommand D → List (Site D)
  | .leaf descriptor kind => leafSites above descriptor kind
  | .group descriptor children =>
    ⟨above, descriptor.name, .group descriptor children⟩ :: childSites (above ++ [descriptor.name]) [] children
termination_by structural command => command

def childSites (above : List String) (earlier : List String) : List (SlashCommand D) → List (Site D)
  | [] => []
  | child :: rest =>
    ⟨above, child.descriptor.name, .sibling earlier⟩ ::
      (sites above child ++ childSites above (child.descriptor.name :: earlier) rest)
termination_by structural children => children

end

/-! ## What the checks return -/

theorem handlers_report (above : List String) (name : String) (options : List CommandOptionDescriptor)
    (handlers : List (AutocompleteHandlerDescriptor D)) (earlier : List String) :
    Reports Fault (handlerSites above name options earlier handlers)
      ((validateHandlers (formatPath above name) options earlier handlers).map fun _ => ()) := by
  induction handlers generalizing earlier with
  | nil => exact reports_nil
  | cons handler rest ih =>
    have hsound := faultless_iff (D := D) ⟨above, name, .handler options earlier handler.optionName⟩
    have hrefused : ¬ Serves options earlier handler.optionName →
        Reports Fault (handlerSites above name options earlier (handler :: rest))
          (.error (.invalidAutocompleteConfiguration (formatPath above name ++ " " ++ handler.optionName))) := by
      intro h
      exact reports_fault ⟨h, rfl⟩
    simp only [validateHandlers]
    by_cases hseen : handler.optionName ∈ earlier
    · rw [if_pos (by simpa using hseen)]
      exact hrefused fun h => h.1 hseen
    rw [if_neg (by simpa using hseen)]
    cases hfind : options.find? (·.name == handler.optionName) with
    | none =>
      refine hrefused ?_
      intro h
      obtain ⟨-, option, hsome, -⟩ := h
      rw [hfind] at hsome
      cases hsome
    | some option =>
      by_cases hauto : option.autocomplete = true
      · simp only [hauto, Bool.not_true, Bool.false_eq_true, if_false]
        exact reports_cons (hsound.mpr ⟨hseen, option, hfind, hauto⟩) (ih _)
      · simp only [hauto, Bool.not_false, if_true]
        refine hrefused ?_
        intro h
        obtain ⟨-, other, hsome, hother⟩ := h
        rw [hfind] at hsome
        cases hsome
        exact hauto hother

theorem options_report (above : List String) (name : String) (handlers : List String)
    (options : List CommandOptionDescriptor) :
    Reports Fault (optionSites (D := D) above name handlers options)
      (((options.filter (·.autocomplete)).find? (misconfigured handlers)).elim (.ok ()) fun option =>
        .error (.invalidAutocompleteConfiguration (formatPath above name ++ " " ++ option.name))) := by
  unfold optionSites
  induction options.filter (·.autocomplete) with
  | nil => exact reports_nil
  | cons option rest ih =>
    have hsound : misconfigured handlers option = false ↔ Completed handlers option := by
      simp only [misconfigured, Bool.or_eq_false_iff, Bool.not_eq_false', List.isEmpty_iff, List.contains_iff_mem]
      exact ⟨fun h => ⟨h.1.1, h.1.2, h.2⟩, fun h => ⟨⟨h.kind, h.choices⟩, h.served⟩⟩
    rw [List.map_cons, List.find?_cons]
    by_cases hbad : misconfigured handlers option = true
    · rw [hbad]
      refine reports_fault ⟨fun h => ?_, rfl⟩
      rw [hsound.mpr h] at hbad
      cases hbad
    · rw [Bool.not_eq_true] at hbad
      rw [hbad]
      exact reports_cons ((faultless_iff _).mpr (hsound.mp hbad)) ih

theorem validateLeaf_reports (above : List String) (descriptor : CommandDescriptor) (kind : SlashCommandLeaf D) :
    Reports Fault (leafSites above descriptor kind)
      (validateLeaf (.leaf descriptor kind) (formatPath above descriptor.name)) := by
  unfold leafSites validateLeaf
  by_cases hlimit : kind.policy.maxConcurrency = some 0
  · rw [if_pos (show (SlashCommand.leaf descriptor kind).policy.bind (·.maxConcurrency) = some 0 from hlimit)]
    exact reports_fault ⟨fun h => h hlimit, rfl⟩
  rw [if_neg (show ¬ (SlashCommand.leaf descriptor kind).policy.bind (·.maxConcurrency) = some 0 from hlimit)]
  refine reports_cons ((faultless_iff _).mpr hlimit) ?_
  simp only [SlashCommand.descriptor_leaf, SlashCommand.autocompleteHandlers_leaf]
  have hhandlers := handlers_report above descriptor.name descriptor.options kind.autocomplete []
  cases hh : validateHandlers (formatPath above descriptor.name) descriptor.options [] kind.autocomplete with
  | error error =>
    rw [hh] at hhandlers
    exact reports_stop hhandlers
  | ok collected =>
    rw [hh] at hhandlers
    obtain ⟨rfl, -, -⟩ := (validateHandlers_iff _ _ _ _ _).mp hh
    have hsame : misconfigured ((kind.autocomplete.map (·.optionName)).reverse ++ []) =
        misconfigured (kind.autocomplete.map (·.optionName)) := by
      funext option
      simp only [misconfigured, List.append_nil, List.contains_eq_mem, List.mem_reverse]
    refine reports_append hhandlers ?_
    dsimp only
    have hoptions := options_report (D := D) above descriptor.name (kind.autocomplete.map (·.optionName)) descriptor.options
    rw [← hsame] at hoptions
    cases hf : (descriptor.options.filter (·.autocomplete)).find?
        (misconfigured ((kind.autocomplete.map (·.optionName)).reverse ++ [])) with
    | none =>
      rw [hf] at hoptions
      exact hoptions
    | some option =>
      rw [hf] at hoptions
      exact hoptions

/-- A group's own check: `depth` is the number of names above it. -/
theorem nestable_iff (above : List String) (descriptor : CommandDescriptor) (children : List (SlashCommand D))
    (h : above ≠ []) :
    Nestable above descriptor children ↔
      ¬ (decide (above.length ≥ 2) || !descriptor.options.isEmpty || children.isEmpty) = true ∧
        ¬ children.any (·.isGroup) = true := by
  have hleaves : ¬ children.any (·.isGroup) = true ↔ ∀ child ∈ children, child.isLeaf = true := by
    rw [Bool.not_eq_true, List.any_eq_false]
    refine forall_congr' fun child => imp_congr_right fun _ => ?_
    cases child <;> simp
  rw [hleaves]
  simp only [Bool.or_eq_true, decide_eq_true_eq, Bool.not_eq_true', List.isEmpty_iff, not_or, Bool.not_eq_false]
  constructor
  · intro hn
    have hdepth := hn.depth
    exact ⟨⟨⟨by omega, by simp [hn.noOptions]⟩, hn.nonempty⟩, hn.leaves h⟩
  · intro ⟨⟨⟨hdepth, hoptions⟩, hnonempty⟩, hchildren⟩
    exact ⟨by simpa using hoptions, hnonempty, by omega, fun _ => hchildren⟩

mutual

theorem validateChild_reports (above : List String) (h : above ≠ []) (earlier : List String) :
    ∀ child : SlashCommand D, Reports Fault (⟨above, child.descriptor.name, .sibling earlier⟩ :: sites above child)
      (validateChild above above.length earlier child)
  | .leaf descriptor kind => by
    simp only [validateChild]
    by_cases hseen : descriptor.name ∈ earlier
    · rw [if_pos (by simpa using hseen)]
      exact reports_fault ⟨fun hs => hs hseen, rfl⟩
    rw [if_neg (by simpa using hseen)]
    refine reports_cons ((faultless_iff _).mpr hseen) ?_
    rw [sites]
    exact validateLeaf_reports above descriptor kind
  | .group descriptor children => by
    simp only [validateChild]
    by_cases hseen : descriptor.name ∈ earlier
    · rw [if_pos (by simpa using hseen)]
      exact reports_fault ⟨fun hs => hs hseen, rfl⟩
    rw [if_neg (by simpa using hseen)]
    refine reports_cons ((faultless_iff _).mpr hseen) ?_
    rw [sites]
    have hnest := nestable_iff above descriptor children h
    by_cases hshape : (decide (above.length ≥ 2) || !descriptor.options.isEmpty || children.isEmpty) = true
    · rw [if_pos hshape]
      exact reports_fault ⟨fun hs => (hnest.mp hs).1 hshape, rfl⟩
    rw [if_neg hshape]
    by_cases hgroups : children.any (·.isGroup) = true
    · rw [if_pos hgroups]
      exact reports_fault ⟨fun hs => (hnest.mp hs).2 hgroups, rfl⟩
    rw [if_neg hgroups]
    refine reports_cons ((faultless_iff _).mpr (hnest.mpr ⟨hshape, hgroups⟩)) ?_
    have hrest := validateChildren_reports (above ++ [descriptor.name]) (by simp) [] children
    rwa [List.length_append, List.length_singleton] at hrest
termination_by structural child => child

theorem validateChildren_reports (above : List String) (h : above ≠ []) (earlier : List String) :
    ∀ children : List (SlashCommand D), Reports Fault (childSites above earlier children)
      (validateChildren above above.length earlier children)
  | [] => reports_nil
  | child :: rest => by
    have hchild := validateChild_reports above h earlier child
    have hrest := validateChildren_reports above h (child.descriptor.name :: earlier) rest
    simp only [validateChildren, childSites]
    rw [← List.cons_append]
    cases hresult : validateChild above above.length earlier child with
    | error error =>
      rw [hresult] at hchild
      exact reports_stop hchild
    | ok _ =>
      rw [hresult] at hchild
      exact reports_append hchild hrest
termination_by structural children => children

end

/-- The checks return the error of the first faulty site, and none if there is none. -/
theorem validateHierarchy_reports (command : SlashCommand D) :
    Reports Fault (sites [] command) (validateHierarchy command) := by
  cases command with
  | leaf descriptor kind =>
    have hpath : formatPath [] descriptor.name = descriptor.name := by simp [formatPath]
    have hleaf := validateLeaf_reports [] descriptor kind
    rw [hpath] at hleaf
    exact hleaf
  | group descriptor children =>
    have hpath : formatPath [] descriptor.name = descriptor.name := by simp [formatPath]
    have hnest : Nestable [] descriptor children ↔ ¬ (!descriptor.options.isEmpty || children.isEmpty) = true := by
      simp only [Bool.or_eq_true, Bool.not_eq_true', List.isEmpty_iff, not_or, Bool.not_eq_false]
      exact ⟨fun hn => ⟨by simp [hn.noOptions], hn.nonempty⟩,
        fun ⟨ho, hc⟩ => ⟨by simpa using ho, hc, Nat.zero_le 1, fun hne => absurd rfl hne⟩⟩
    rw [sites]
    show Reports Fault _ (if (!descriptor.options.isEmpty || children.isEmpty) = true then
      .error (.invalidCommandHierarchy descriptor.name)
      else validateChildren [descriptor.name] 1 [] children)
    by_cases hshape : (!descriptor.options.isEmpty || children.isEmpty) = true
    · rw [if_pos hshape]
      exact reports_fault ⟨fun hs => hnest.mp hs hshape, by rw [Site.error, Site.path, hpath]⟩
    rw [if_neg hshape]
    exact reports_cons ((faultless_iff _).mpr (hnest.mpr hshape))
      (validateChildren_reports [descriptor.name] (by simp) [] children)

/-- A tree is Discord-native exactly if no site has a fault. -/
theorem sites_valid (command : SlashCommand D) : Valid command ↔ ∀ site ∈ sites [] command, site.Sound := by
  rw [← validateHierarchy_iff, reports_ok (validateHierarchy_reports command)]
  exact forall_congr' fun site => imp_congr_right fun _ => faultless_iff site

end GloamCommands
