/-
  GloamCommands.Lib.Slots — loops that read keyed entries into slots.

  Each entry has a key, and what it is read into depends on the key alone: a slot that
  takes one value, a list of values with distinct keys of their own, a flag. `Taken` says
  of one key what values of it make of a state. If it is told entry by entry (`cons`), an
  entry leaves other keys alone (`frame`), and no values of any key leave the state as it
  is (`nil`), then the loop reads each key's values apart from the others', so that the
  order of entries of different keys does not matter (`Slots.loop_iff`).
  - `OnceTaken`, `EachTaken`, `FlagTaken`: the three kinds of slot, entry by entry.
-/

import GloamCommands.Lib.Keyed
import Mathlib.Data.List.Forall2

namespace GloamCommands.Lib

variable {α β ε κ ν σ : Type*}

/-! ## One slot -/

/-- Every value is read into a slot that holds one at most. -/
def OnceTaken (Reads : ν → α → Prop) (values : List ν) (slot final : Option α) : Prop :=
  ∃ read, List.Forall₂ Reads values read ∧ slot.toList ++ read = final.toList

/-- Every value is added to a list in which keys differ. -/
def EachTaken (Reads : ν → α → Prop) (key : α → β) (values : List ν) (list final : List α) : Prop :=
  ∃ read, List.Forall₂ Reads values read ∧ Fresh key (list.map key) read ∧ final = list ++ read

/-- A value turns on a flag that is off. -/
def FlagTaken (Reads : ν → Prop) (values : List ν) (flag final : Bool) : Prop :=
  (∀ value ∈ values, Reads value) ∧ flag.toNat + values.length = final.toNat

theorem onceTaken_nil {Reads : ν → α → Prop} {slot final : Option α} : OnceTaken Reads [] slot final ↔ slot = final := by
  constructor
  · intro ⟨read, hread, heq⟩
    cases hread
    cases slot <;> cases final <;> simp_all
  · intro h
    exact ⟨[], .nil, by rw [h, List.append_nil]⟩

theorem onceTaken_cons {Reads : ν → α → Prop} {value : ν} {values : List ν} {slot final : Option α} :
    OnceTaken Reads (value :: values) slot final ↔
      slot = none ∧ ∃ a, Reads value a ∧ OnceTaken Reads values (some a) final := by
  constructor
  · intro ⟨read, hread, heq⟩
    obtain ⟨a, rest, ha, hrest, rfl⟩ := List.forall₂_cons_left_iff.mp hread
    cases slot with
    | none => exact ⟨rfl, a, ha, rest, hrest, heq⟩
    | some old => cases final <;> simp at heq
  · intro ⟨hslot, a, ha, rest, hrest, heq⟩
    exact ⟨a :: rest, .cons ha hrest, by rw [hslot]; exact heq⟩

theorem onceTaken_none {Reads : ν → α → Prop} {values : List ν} {final : Option α} :
    OnceTaken Reads values none final ↔
      (final = none ∧ values = []) ∨ ∃ value a, values = [value] ∧ Reads value a ∧ final = some a := by
  constructor
  · intro ⟨read, hread, heq⟩
    cases hread with
    | nil => cases final <;> simp_all
    | @cons value a values read ha hrest =>
      cases final with
      | none => simp at heq
      | some _ =>
        simp only [Option.toList_none, List.nil_append, Option.toList_some, List.cons.injEq] at heq
        obtain ⟨rfl, rfl⟩ := heq
        cases hrest
        exact .inr ⟨value, _, rfl, ha, rfl⟩
  · intro h
    rcases h with ⟨rfl, rfl⟩ | ⟨value, a, rfl, ha, rfl⟩
    · exact ⟨[], .nil, rfl⟩
    · exact ⟨[a], .cons ha .nil, rfl⟩

theorem eachTaken_nil {Reads : ν → α → Prop} {key : α → β} {list final : List α} :
    EachTaken Reads key [] list final ↔ list = final := by
  constructor
  · intro ⟨read, hread, _, heq⟩
    cases hread
    rw [heq, List.append_nil]
  · intro h
    exact ⟨[], .nil, fresh_nil _ _, by rw [h, List.append_nil]⟩

theorem eachTaken_cons {Reads : ν → α → Prop} {key : α → β} {value : ν} {values : List ν} {list final : List α} :
    EachTaken Reads key (value :: values) list final ↔
      ∃ a, Reads value a ∧ key a ∉ list.map key ∧ EachTaken Reads key values (list ++ [a]) final := by
  have hseen : ∀ (a : α) (read : List α),
      Fresh key (key a :: list.map key) read ↔ Fresh key ((list ++ [a]).map key) read := by
    intro a read
    simp [Fresh, or_comm]
  constructor
  · intro ⟨read, hread, hfresh, heq⟩
    obtain ⟨a, rest, ha, hrest, rfl⟩ := List.forall₂_cons_left_iff.mp hread
    obtain ⟨hnew, hfresh⟩ := fresh_cons.mp hfresh
    exact ⟨a, ha, hnew, rest, hrest, (hseen a rest).mp hfresh, by rw [heq, List.append_assoc, List.singleton_append]⟩
  · intro ⟨a, ha, hnew, rest, hrest, hfresh, heq⟩
    refine ⟨a :: rest, .cons ha hrest, fresh_cons.mpr ⟨hnew, (hseen a rest).mpr hfresh⟩, ?_⟩
    rw [heq, List.append_assoc, List.singleton_append]

theorem eachTaken_empty {Reads : ν → α → Prop} {key : α → β} {values : List ν} {final : List α} :
    EachTaken Reads key values [] final ↔ List.Forall₂ Reads values final ∧ (final.map key).Nodup := by
  constructor
  · intro ⟨read, hread, hfresh, heq⟩
    rw [heq, List.nil_append]
    exact ⟨hread, fresh_unseen.mp hfresh⟩
  · intro ⟨hread, hnodup⟩
    exact ⟨final, hread, fresh_unseen.mpr hnodup, rfl⟩

theorem flagTaken_nil {Reads : ν → Prop} {flag final : Bool} : FlagTaken Reads [] flag final ↔ flag = final := by
  cases flag <;> cases final <;> simp [FlagTaken]

theorem flagTaken_cons {Reads : ν → Prop} {value : ν} {values : List ν} {flag final : Bool} :
    FlagTaken Reads (value :: values) flag final ↔ flag = false ∧ Reads value ∧ FlagTaken Reads values true final := by
  unfold FlagTaken
  rw [List.forall_mem_cons, List.length_cons]
  constructor
  · intro ⟨⟨hvalue, hvalues⟩, hcount⟩
    cases flag with
    | true => cases final <;> simp at hcount
    | false => exact ⟨rfl, hvalue, hvalues, by rw [Bool.toNat_false] at hcount; rw [Bool.toNat_true]; omega⟩
  · intro ⟨hflag, hvalue, hvalues, hcount⟩
    rw [hflag]
    exact ⟨⟨hvalue, hvalues⟩, by rw [Bool.toNat_true] at hcount; rw [Bool.toNat_false]; omega⟩

/-! ## All slots -/

def given [DecidableEq κ] {entry : Type*} (key : entry → Option κ) (value : entry → ν) (k : κ) (entries : List entry) : List ν :=
  (entries.filter fun e => key e = some k).map value

/-- A state of slots, and how one value of a key is taken into it. -/
structure Slots (take : σ → ν → κ → Except ε σ) (Taken : κ → List ν → σ → σ → Prop) : Prop where
  nil : ∀ s final, (∀ k, Taken k [] s final) ↔ s = final
  cons : ∀ k value values s final,
    Taken k (value :: values) s final ↔ ∃ next, take s value k = .ok next ∧ Taken k values next final
  frame : ∀ k other value values s next final, take s value k = .ok next → other ≠ k →
    (Taken other values s final ↔ Taken other values next final)

namespace Slots

variable [DecidableEq κ] {entry : Type*} {key : entry → Option κ} {value : entry → ν}
variable {take : σ → ν → κ → Except ε σ} {Taken : κ → List ν → σ → σ → Prop} {loop : σ → List entry → Except ε σ}

/-- A loop that takes entry after entry, and refuses those without a key, reads each
    key's values apart from the others'. -/
theorem loop_iff (h : Slots take Taken) (hnil : ∀ s, loop s [] = .ok s)
    (hcons : ∀ s e entries final, loop s (e :: entries) = .ok final ↔
      ∃ k next, key e = some k ∧ take s (value e) k = .ok next ∧ loop next entries = .ok final)
    {entries : List entry} : ∀ {s final : σ}, loop s entries = .ok final ↔
      (∀ e ∈ entries, (key e).isSome = true) ∧ ∀ k, Taken k (given key value k entries) s final := by
  induction entries with
  | nil =>
    intro s final
    rw [hnil, Except.ok.injEq, ← h.nil s final]
    exact ⟨fun ht => ⟨fun _ he => absurd he List.not_mem_nil, ht⟩, fun ht => ht.2⟩
  | cons e entries ih =>
    intro s final
    rw [hcons, List.forall_mem_cons]
    have hown : ∀ {k}, key e = some k → given key value k (e :: entries) = value e :: given key value k entries := by
      intro k hk
      simp [given, hk]
    have hother : ∀ {k other}, key e = some k → other ≠ k → given key value other (e :: entries) = given key value other entries := by
      intro k other hk hne
      simp [given, hk, hne.symm]
    constructor
    · intro ⟨k, next, hk, htake, hloop⟩
      obtain ⟨hkeys, htaken⟩ := ih.mp hloop
      refine ⟨⟨by rw [hk]; rfl, hkeys⟩, fun other => ?_⟩
      by_cases ho : other = k
      · rw [ho, hown hk, h.cons]
        exact ⟨next, htake, htaken k⟩
      · rw [hother hk ho, h.frame k other _ _ _ _ _ htake ho]
        exact htaken other
    · intro ⟨⟨hsome, hkeys⟩, htaken⟩
      obtain ⟨k, hk⟩ := Option.isSome_iff_exists.mp hsome
      have hfirst := htaken k
      rw [hown hk, h.cons] at hfirst
      obtain ⟨next, htake, hrest⟩ := hfirst
      refine ⟨k, next, hk, htake, ih.mpr ⟨hkeys, fun other => ?_⟩⟩
      by_cases ho : other = k
      · rw [ho]
        exact hrest
      · have hthis := htaken other
        rw [hother hk ho, h.frame k other _ _ _ _ _ htake ho] at hthis
        exact hthis

end Slots

end GloamCommands.Lib
