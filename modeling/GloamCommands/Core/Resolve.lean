/-
  GloamCommands.Core.Resolve — from submitted options to a registered leaf
  (`resolve_command`, `only_branch` in crates/gloam-commands/src/framework.rs).

  `resolveCommand` follows the source's three exits. `Selects` says the same of a
  registered tree without an order of checks: the submission names, one option a level,
  a leaf of the tree, and what is below the last level is the leaf's scope.
  - `resolve_iff`: on a registered tree the resolver succeeds exactly on such a submission.
  - `resolve_error`: every other submission is refused with `UnknownCommandPath`.
-/

import GloamCommands.Core.Registry

namespace GloamCommands

variable {D : Type}

abbrev Submitted := ApplicationCommandInteractionDataOption

structure ResolvedCommand (D : Type) where
  command : SlashCommand D
  path : List String
  options : List Submitted

def onlyBranch (submitted : List Submitted) (path : List String) : Except Error Submitted :=
  match submitted with
  | [branch] => .ok branch
  | _ => .error (.unknownCommandPath (" ".intercalate path))

/-- `children().iter().find(..)` on a submitted name. -/
def findChild (command : SlashCommand D) (name : String) : Option (SlashCommand D) :=
  command.children.find? (·.descriptor.name == name)

/-- The last level: a leaf under a `SUB_COMMAND_GROUP`. -/
def resolveNested (child : SlashCommand D) (path : List String) (options : List Submitted) :
    Except Error (ResolvedCommand D) :=
  match onlyBranch options path with
  | .error error => .error error
  | .ok nested =>
    match findChild child nested.name with
    | none => .error (.unknownCommandPath (" ".intercalate path ++ " " ++ nested.name))
    | some leaf =>
      let path := path ++ [leaf.descriptor.name]
      if !leaf.isLeaf || nested.kind != .subCommand then .error (.unknownCommandPath (" ".intercalate path))
      else .ok ⟨leaf, path, nested.options⟩

def resolveCommand (command : SlashCommand D) (submitted : List Submitted) : Except Error (ResolvedCommand D) :=
  let path := [command.descriptor.name]
  if command.isLeaf then .ok ⟨command, path, submitted⟩
  else
    match onlyBranch submitted path with
    | .error error => .error error
    | .ok branch =>
      match findChild command branch.name with
      | none => .error (.unknownCommandPath (" ".intercalate path ++ " " ++ branch.name))
      | some child =>
        let path := path ++ [child.descriptor.name]
        if child.isLeaf then
          if branch.kind != .subCommand then .error (.unknownCommandPath (" ".intercalate path))
          else .ok ⟨child, path, branch.options⟩
        else if branch.kind != .subCommandGroup then .error (.unknownCommandPath (" ".intercalate path))
        else resolveNested child path branch.options

/-! ## What a submission selects -/

/-- `submitted` names the levels from `command` to `leaf`, each level one option of the
    level's kind, and `scope` is what is below the last. -/
inductive Selects : SlashCommand D → List Submitted → List (String × ApplicationCommandOptionType) →
    SlashCommand D → List Submitted → Prop
  | leaf {descriptor : CommandDescriptor} {kind : SlashCommandLeaf D} (scope : List Submitted) :
      Selects (.leaf descriptor kind) scope [] (.leaf descriptor kind) scope
  | sub {descriptor : CommandDescriptor} {children : List (SlashCommand D)} {child : SlashCommand D}
      {branch : Submitted} : child ∈ children → child.isLeaf = true → branch.name = child.descriptor.name →
      branch.kind = .subCommand →
      Selects (.group descriptor children) [branch] [(branch.name, branch.kind)] child branch.options
  | nested {descriptor groupDescriptor : CommandDescriptor} {children subs : List (SlashCommand D)}
      {leaf : SlashCommand D} {branch nested : Submitted} : .group groupDescriptor subs ∈ children → leaf ∈ subs →
      leaf.isLeaf = true → branch.name = groupDescriptor.name → branch.kind = .subCommandGroup →
      branch.options = [nested] → nested.name = leaf.descriptor.name → nested.kind = .subCommand →
      Selects (.group descriptor children) [branch] [(branch.name, branch.kind), (nested.name, nested.kind)]
        leaf nested.options

theorem Selects.isLeaf {command leaf : SlashCommand D} {submitted scope : List Submitted}
    {levels : List (String × ApplicationCommandOptionType)} (h : Selects command submitted levels leaf scope) :
    leaf.isLeaf = true := by
  cases h with
  | leaf => rfl
  | sub _ hl => exact hl
  | nested _ _ hl => exact hl

theorem onlyBranch_ok {submitted : List Submitted} {path : List String} {branch : Submitted} :
    onlyBranch submitted path = .ok branch ↔ submitted = [branch] := by
  unfold onlyBranch
  split
  · simp
  · rename_i h
    refine ⟨fun he => (by cases he), fun he => absurd he (h branch)⟩

/-- Among siblings of distinct names, the first of a name is the only one. -/
theorem find_sibling {children : List (SlashCommand D)} (h : (names children).Nodup) {child : SlashCommand D}
    (hc : child ∈ children) : children.find? (·.descriptor.name == child.descriptor.name) = some child :=
  Lib.find_key h hc

theorem findChild_some {command child : SlashCommand D} {name : String} (h : findChild command name = some child) :
    child ∈ command.children ∧ name = child.descriptor.name := by
  unfold findChild at h
  refine ⟨List.mem_of_find?_eq_some h, ?_⟩
  have := List.find?_some h
  exact (beq_iff_eq.mp this).symm

theorem resolve_selects {command : SlashCommand D} {submitted : List Submitted} {resolved : ResolvedCommand D}
    (h : resolveCommand command submitted = .ok resolved) :
    ∃ levels, Selects command submitted levels resolved.command resolved.options ∧
      resolved.path = command.descriptor.name :: levels.map (·.1) := by
  cases command with
  | leaf descriptor kind =>
    cases h
    exact ⟨[], .leaf submitted, rfl⟩
  | group descriptor children =>
    simp only [resolveCommand, SlashCommand.isLeaf_group, Bool.false_eq_true, if_false] at h
    split at h
    · cases h
    rename_i branch hb
    rw [onlyBranch_ok] at hb
    subst hb
    split at h
    · cases h
    rename_i child hc
    obtain ⟨hm, hn⟩ := findChild_some hc
    split at h
    · rename_i hl
      split at h
      · cases h
      · rename_i hk
        cases h
        exact ⟨[(branch.name, branch.kind)], .sub hm hl hn (by simpa using hk), by simp [hn]⟩
    · rename_i hl
      split at h
      · cases h
      rename_i hk
      cases child with
      | leaf => simp at hl
      | group groupDescriptor subs =>
        unfold resolveNested at h
        split at h
        · cases h
        rename_i nested hb
        rw [onlyBranch_ok] at hb
        split at h
        · cases h
        rename_i leaf hf
        obtain ⟨hm', hn'⟩ := findChild_some hf
        dsimp only at h
        split at h
        · cases h
        rename_i hbad
        simp only [Bool.or_eq_true, Bool.not_eq_true', bne_iff_ne, ne_eq, not_or, Bool.not_eq_false,
          not_not] at hbad
        cases h
        refine ⟨[(branch.name, branch.kind), (nested.name, nested.kind)],
          .nested hm hm' hbad.1 hn (by simpa using hk) hb hn' hbad.2, ?_⟩
        simp [hn, hn']

theorem selects_resolve {command leaf : SlashCommand D} {submitted scope : List Submitted}
    {levels : List (String × ApplicationCommandOptionType)} (hv : Valid command)
    (h : Selects command submitted levels leaf scope) :
    resolveCommand command submitted = .ok ⟨leaf, command.descriptor.name :: levels.map (·.1), scope⟩ := by
  cases h with
  | leaf => rfl
  | @sub descriptor children _ branch hm hl hn hk =>
    cases hv with
    | group hg =>
      have hf : findChild (.group descriptor children) branch.name = some leaf := by
        rw [hn]; exact find_sibling hg.distinct hm
      simp only [resolveCommand, SlashCommand.isLeaf_group, Bool.false_eq_true, if_false, onlyBranch, hf, hl, if_true,
        hk, bne_self_eq_false]
      simp [hn]
  | @nested descriptor groupDescriptor children subs leaf branch nested hm hm' hl hn hk hb hn' hk' =>
    cases hv with
    | group hg =>
      have hgroup : ValidGroup ValidSub groupDescriptor subs := by
        cases hg.children _ hm with
        | sub hs => cases hs
        | group hs => exact hs
      have hf : findChild (.group descriptor children) branch.name = some (.group groupDescriptor subs) := by
        rw [hn]; exact find_sibling hg.distinct hm
      have hf' : findChild (.group groupDescriptor subs) nested.name = some leaf := by
        rw [hn']; exact find_sibling hgroup.distinct hm'
      simp only [resolveCommand, SlashCommand.isLeaf_group, Bool.false_eq_true, if_false, onlyBranch, hf, hk,
        bne_self_eq_false, resolveNested, hb, hf', hl, hk', Bool.not_true, Bool.or_self]
      simp [hn, hn']

/-- On a registered tree the resolver accepts exactly the submissions that select a leaf. -/
theorem resolve_iff {command : SlashCommand D} (hv : Valid command) (submitted : List Submitted)
    (resolved : ResolvedCommand D) :
    resolveCommand command submitted = .ok resolved ↔
      ∃ levels, Selects command submitted levels resolved.command resolved.options ∧
        resolved.path = command.descriptor.name :: levels.map (·.1) := by
  refine ⟨resolve_selects, fun ⟨levels, hs, hp⟩ => ?_⟩
  rw [selects_resolve hv hs, ← hp]

theorem onlyBranch_error {submitted : List Submitted} {path : List String} {error : Error}
    (h : onlyBranch submitted path = .error error) : ∃ p, error = .unknownCommandPath p := by
  unfold onlyBranch at h
  split at h
  · cases h
  · cases h; exact ⟨_, rfl⟩

theorem resolve_error {command : SlashCommand D} {submitted : List Submitted} {error : Error}
    (h : resolveCommand command submitted = .error error) : ∃ p, error = .unknownCommandPath p := by
  unfold resolveCommand at h
  dsimp only at h
  split at h
  · cases h
  split at h
  · rename_i hb; cases h; exact onlyBranch_error hb
  split at h
  · cases h; exact ⟨_, rfl⟩
  split at h
  · split at h
    · cases h; exact ⟨_, rfl⟩
    · cases h
  split at h
  · cases h; exact ⟨_, rfl⟩
  unfold resolveNested at h
  split at h
  · rename_i hb; cases h; exact onlyBranch_error hb
  split at h
  · cases h; exact ⟨_, rfl⟩
  dsimp only at h
  split at h
  · cases h; exact ⟨_, rfl⟩
  · cases h

end GloamCommands
