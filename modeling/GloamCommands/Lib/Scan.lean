/-
  GloamCommands.Lib.Scan — checks made in order, the first fault reported.

  `Fault` says which error belongs to which item. `Reports` is what a scan of a list of
  items may return: no error if no item has a fault, else the error of the first that has.
  A scan of two lists one after the other is put together from the scans of each
  (`reports_append`, `reports_stop`), so that a recursive check is followed along the list
  of what it looks at. If an item has at most one error, then what a scan returns is
  determined by the list (`reports_error`, `reports_ok`).
-/

import Mathlib.Tactic.Tauto
import Mathlib.Tactic.TypeStar

namespace GloamCommands.Lib

variable {α ε : Type*} {Fault : α → ε → Prop}

def Faultless (Fault : α → ε → Prop) (a : α) : Prop := ∀ error, ¬ Fault a error

inductive FirstFault (Fault : α → ε → Prop) : List α → ε → Prop where
  | here {a : α} {l : List α} {error : ε} : Fault a error → FirstFault Fault (a :: l) error
  | later {a : α} {l : List α} {error : ε} : Faultless Fault a → FirstFault Fault l error → FirstFault Fault (a :: l) error

inductive Reports (Fault : α → ε → Prop) (l : List α) : Except ε Unit → Prop where
  | passed : (∀ a ∈ l, Faultless Fault a) → Reports Fault l (.ok ())
  | refused {error : ε} : FirstFault Fault l error → Reports Fault l (.error error)

/-! ## Scans in sequence -/

theorem reports_nil : Reports Fault [] (.ok ()) := .passed fun _ h => absurd h List.not_mem_nil

theorem reports_fault {a : α} {l : List α} {error : ε} (h : Fault a error) : Reports Fault (a :: l) (.error error) :=
  .refused (.here h)

theorem reports_cons {a : α} {l : List α} {result : Except ε Unit} (ha : Faultless Fault a)
    (hl : Reports Fault l result) : Reports Fault (a :: l) result := by
  cases hl with
  | passed h => exact .passed (List.forall_mem_cons.mpr ⟨ha, h⟩)
  | refused h => exact .refused (.later ha h)

theorem reports_append {l l' : List α} {result : Except ε Unit} (h : Reports Fault l (.ok ()))
    (h' : Reports Fault l' result) : Reports Fault (l ++ l') result := by
  cases h with
  | passed h =>
    induction l with
    | nil => exact h'
    | cons a l ih =>
      obtain ⟨ha, hl⟩ := List.forall_mem_cons.mp h
      exact reports_cons ha (ih hl)

theorem reports_stop {l l' : List α} {error : ε} (h : Reports Fault l (.error error)) :
    Reports Fault (l ++ l') (.error error) := by
  cases h with
  | refused h =>
    induction h with
    | here h => exact reports_fault h
    | later ha _ ih => exact reports_cons ha ih

/-! ## What a scan returns -/

theorem firstFault_fault {l : List α} {error : ε} (h : FirstFault Fault l error) : ¬ ∀ a ∈ l, Faultless Fault a := by
  intro hl
  induction h with
  | here h => exact hl _ (List.mem_cons_self ..) _ h
  | later _ _ ih => exact ih fun a ha => hl a (List.mem_cons_of_mem _ ha)

theorem firstFault_nil (error : ε) : ¬ FirstFault Fault [] error := by
  intro h
  cases h

theorem firstFault_cons {a : α} {l : List α} {error : ε} :
    FirstFault Fault (a :: l) error ↔ Fault a error ∨ (Faultless Fault a ∧ FirstFault Fault l error) := by
  constructor
  · intro h
    cases h with
    | here h => exact .inl h
    | later ha h => exact .inr ⟨ha, h⟩
  · intro h
    rcases h with h | ⟨ha, h⟩
    · exact .here h
    · exact .later ha h

theorem firstFault_append {l l' : List α} {error : ε} :
    FirstFault Fault (l ++ l') error ↔
      FirstFault Fault l error ∨ ((∀ a ∈ l, Faultless Fault a) ∧ FirstFault Fault l' error) := by
  induction l with
  | nil =>
    refine ⟨fun h => .inr ⟨fun _ ha => absurd ha List.not_mem_nil, h⟩, fun h => ?_⟩
    rcases h with h | ⟨-, h⟩
    · exact absurd h (firstFault_nil error)
    · exact h
  | cons a l ih =>
    rw [List.cons_append, firstFault_cons, firstFault_cons, ih, List.forall_mem_cons]
    tauto

theorem faultless_all {l : List α} (h : ∀ error, ¬ FirstFault Fault l error) : ∀ a ∈ l, Faultless Fault a := by
  induction l with
  | nil => exact fun _ ha => absurd ha List.not_mem_nil
  | cons a l ih =>
    have ha : Faultless Fault a := fun error hf => h error (.here hf)
    exact List.forall_mem_cons.mpr ⟨ha, ih fun error hf => h error (.later ha hf)⟩

/-- What fails with the errors of an item fails unless the item has none. -/
theorem faultless_ok {a : α} {result : Except ε Unit} (h : ∀ error, Fault a error ↔ result = .error error) :
    Faultless Fault a ↔ result = .ok () := by
  cases result with
  | ok _ => exact ⟨fun _ => rfl, fun _ error hf => (by cases (h error).mp hf)⟩
  | error error => exact ⟨fun hnone => absurd ((h error).mpr rfl) (hnone error), fun he => (by cases he)⟩

theorem faultless_all_ok {l : List α} {result : Except ε Unit}
    (h : ∀ error, result = .error error ↔ FirstFault Fault l error) :
    (∀ a ∈ l, Faultless Fault a) ↔ result = .ok () := by
  cases result with
  | ok _ => exact ⟨fun _ => rfl, fun _ => faultless_all fun error hf => (by cases (h error).mpr hf)⟩
  | error error => exact ⟨fun hnone => absurd hnone (firstFault_fault ((h error).mp rfl)), fun he => (by cases he)⟩

theorem firstFault_unique (hone : ∀ a error error', Fault a error → Fault a error' → error = error') {l : List α}
    {error error' : ε} (h : FirstFault Fault l error) (h' : FirstFault Fault l error') : error = error' := by
  induction h with
  | here h =>
    cases h' with
    | here h' => exact hone _ _ _ h h'
    | later ha _ => exact absurd h (ha _)
  | later ha _ ih =>
    cases h' with
    | here h' => exact absurd h' (ha _)
    | later _ h' => exact ih h'

theorem reports_ok {l : List α} {result : Except ε Unit} (h : Reports Fault l result) :
    result = .ok () ↔ ∀ a ∈ l, Faultless Fault a := by
  cases h with
  | passed h => exact ⟨fun _ => h, fun _ => rfl⟩
  | refused h => exact ⟨fun he => (by cases he), fun hl => absurd hl (firstFault_fault h)⟩

theorem reports_error (hone : ∀ a error error', Fault a error → Fault a error' → error = error') {l : List α}
    {result : Except ε Unit} (h : Reports Fault l result) (error : ε) :
    result = .error error ↔ FirstFault Fault l error := by
  cases h with
  | passed h => exact ⟨fun he => (by cases he), fun hf => absurd h (firstFault_fault hf)⟩
  | refused h =>
    constructor
    · intro he
      cases he
      exact h
    · intro h'
      rw [firstFault_unique hone h h']

end GloamCommands.Lib
