/-
  GloamCommands.Dispatch.Refusals — which error a builder refuses its commands with
  (`FrameworkBuilder::build` in crates/gloam-commands/src/framework.rs, `insert` in
  crates/gloam-commands/src/registry.rs).

  Commands are inserted in the order they were added, each after its whole tree is found
  valid, and a name is compared with the roots before it only then. So a refusal has one
  place: the first faulty site of all commands in that order.
  - `insertAll_reports`: the loop returns the error of that site.
  - `build_first_fault`: so does `build`, once the limit is positive.
-/

import GloamCommands.Core.Faults
import GloamCommands.Dispatch.Builder

namespace GloamCommands.Dispatch

open Lib (FirstFault Reports reports_nil reports_fault reports_cons reports_append reports_stop reports_error)

variable {D : Type}

/-- The sites of commands registered one after the other, after roots of these names. -/
def registeredSites (earlier : List String) : List (SlashCommand D) → List (Site D)
  | [] => []
  | command :: rest =>
    sites [] command ++ (⟨[], command.descriptor.name, .root earlier⟩ ::
      registeredSites (command.descriptor.name :: earlier) rest)

/-- `insert` looks at the tree, then at the roots it holds. -/
theorem insert_reports {registry : CommandRegistry D} {earlier : List String}
    (h : ∀ name, name ∈ earlier ↔ registry.get name ≠ none) (command : SlashCommand D) :
    Reports Fault (sites [] command ++ [⟨[], command.descriptor.name, .root earlier⟩]) (registry.insert command).1 := by
  have htree := validateHierarchy_reports command
  have hheld : registry.commands.contains command.descriptor.name = true ↔ command.descriptor.name ∈ earlier := by
    rw [h, Std.TreeMap.contains_eq_isSome_getElem?, Option.isSome_iff_ne_none]
    rfl
  unfold CommandRegistry.insert
  split
  · rename_i error herror
    rw [herror] at htree
    exact reports_stop htree
  · rename_i hok
    rw [hok] at htree
    refine reports_append htree ?_
    dsimp only
    by_cases hmem : command.descriptor.name ∈ earlier
    · rw [if_pos (hheld.mpr hmem)]
      exact reports_fault ⟨fun hs => hs hmem, rfl⟩
    · rw [if_neg fun hc => hmem (hheld.mp hc)]
      exact reports_cons ((faultless_iff _).mpr hmem) reports_nil

theorem insertAll_reports (commands : List (SlashCommand D)) :
    ∀ {registry : CommandRegistry D} {earlier : List String}, (∀ name, name ∈ earlier ↔ registry.get name ≠ none) →
      Reports Fault (registeredSites earlier commands) ((insertAll registry commands).map fun _ => ()) := by
  induction commands with
  | nil =>
    intro registry earlier _
    exact reports_nil
  | cons command rest ih =>
    intro registry earlier h
    have hinsert := insert_reports h command
    have hsites : registeredSites earlier (command :: rest) =
        (sites [] command ++ [⟨[], command.descriptor.name, .root earlier⟩]) ++
          registeredSites (command.descriptor.name :: earlier) rest := by
      rw [registeredSites, List.append_assoc, List.singleton_append]
    rw [hsites]
    cases hi : registry.insert command with
    | mk result next =>
      rw [hi] at hinsert
      simp only [insertAll, hi]
      cases result with
      | error error => exact reports_stop hinsert
      | ok _ =>
        have hok : (registry.insert command).1 = .ok () := by rw [hi]
        have hget := insert_get hok
        rw [hi] at hget
        refine reports_append hinsert (ih fun name => ?_)
        rw [hget name, List.mem_cons, h name]
        by_cases hname : command.descriptor.name = name
        · simp [hname]
        · simp [hname, Ne.symm hname]

/-- `build` refuses a limit of zero first; then the error is that of the first faulty
    site, over the commands in the order they were added, and if there is none then it
    does not fail. -/
theorem build_first_fault (builder : FrameworkBuilder D) (error : Error) :
    builder.build = .error error ↔
      (builder.maxConcurrentCommands = 0 ∧ error = .invalidConcurrencyLimit) ∨
      (builder.maxConcurrentCommands ≠ 0 ∧ FirstFault Fault (registeredSites [] builder.commands) error) := by
  have hreports := @insertAll_reports D builder.commands CommandRegistry.new [] fun name =>
    ⟨fun h => absurd h List.not_mem_nil, fun h => absurd rfl h⟩
  rw [← reports_error fault_error hreports]
  unfold FrameworkBuilder.build
  split
  · rename_i hzero
    simp [hzero, eq_comm]
  · rename_i hlimit
    cases insertAll CommandRegistry.new builder.commands with
    | error _ => simp [hlimit, Except.map]
    | ok _ => simp [hlimit, Except.map]

end GloamCommands.Dispatch
