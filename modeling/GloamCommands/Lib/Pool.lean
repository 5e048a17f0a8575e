/-
  GloamCommands.Lib.Pool — a fixed number of tokens among the members of a list.

  `available` tokens are free and every member that `holds` has one; together they are
  `total` (`Conserved`). A move replaces one member: it keeps what it has, takes a free
  token, or gives one back.
-/

import Mathlib.Data.List.Perm.Basic

namespace GloamCommands.Lib

variable {α : Type}

def Conserved (total available : Nat) (holds : α → Bool) (members : List α) : Prop :=
  available + members.countP holds = total

/-- Replacing one member moves the count by what that member counts. -/
theorem countP_replace (p : α → Bool) {members : List α} {i : Nat} {a : α} (b : α) (h : members[i]? = some a) :
    (members.set i b).countP p + (if p a then 1 else 0) = members.countP p + (if p b then 1 else 0) := by
  induction members generalizing i with
  | nil => simp at h
  | cons x rest ih =>
    cases i with
    | zero =>
      simp only [List.getElem?_cons_zero, Option.some.injEq] at h
      subst h
      simp only [List.set_cons_zero, List.countP_cons]
      omega
    | succ i =>
      have := ih (by simpa using h)
      simp only [List.set_cons_succ, List.countP_cons]
      omega

theorem countP_lt {p q : α → Bool} {members : List α} {i : Nat} {a : α} (h : ∀ x ∈ members, p x = true → q x = true)
    (ha : members[i]? = some a) (hp : p a = false) (hq : q a = true) : members.countP p < members.countP q := by
  obtain ⟨hi, rfl⟩ := List.getElem?_eq_some_iff.mp ha
  have hperm := List.getElem_cons_eraseIdx_perm hi
  have hrest : (members.eraseIdx i).countP p ≤ (members.eraseIdx i).countP q :=
    List.countP_mono_left fun x hx => h x (List.mem_of_mem_eraseIdx hx)
  rw [← hperm.countP_eq p, ← hperm.countP_eq q, List.countP_cons, List.countP_cons, hp, hq]
  simp only [Bool.false_eq_true, if_false, if_true]
  omega

variable {total available : Nat} {holds : α → Bool} {members : List α} {i : Nat} {a b : α}

theorem Conserved.concat (h : Conserved total available holds members) (hb : holds b = false) :
    Conserved total available holds (members ++ [b]) := by
  unfold Conserved at h ⊢
  rw [List.countP_append, List.countP_singleton, hb]
  simpa using h

theorem Conserved.enter (h : Conserved total available holds members) (hfree : available ≠ 0) (hb : holds b = true) :
    Conserved total (available - 1) holds (members ++ [b]) := by
  unfold Conserved at h ⊢
  rw [List.countP_append, List.countP_singleton, hb]
  simp only [if_true]
  omega

theorem Conserved.keep (h : Conserved total available holds members) (ha : members[i]? = some a)
    (hab : holds b = holds a) : Conserved total available holds (members.set i b) := by
  unfold Conserved at h ⊢
  have := countP_replace holds b ha
  rw [hab] at this
  omega

theorem Conserved.take (h : Conserved total available holds members) (ha : members[i]? = some a)
    (hfree : available ≠ 0) (hna : holds a = false) (hb : holds b = true) :
    Conserved total (available - 1) holds (members.set i b) := by
  unfold Conserved at h ⊢
  have := countP_replace holds b ha
  rw [hna, hb] at this
  simp only [Bool.false_eq_true, if_false, if_true] at this
  omega

theorem Conserved.give (h : Conserved total available holds members) (ha : members[i]? = some a)
    (hha : holds a = true) (hb : holds b = false) : Conserved total (available + 1) holds (members.set i b) := by
  unfold Conserved at h ⊢
  have := countP_replace holds b ha
  rw [hha, hb] at this
  simp only [Bool.false_eq_true, if_false, if_true] at this
  omega

/-- A member that holds nothing can be left out of the balance. -/
theorem Conserved.erase (h : Conserved total available holds members) (ha : members[i]? = some a)
    (hna : holds a = false) : Conserved total available holds (members.eraseIdx i) := by
  obtain ⟨hi, rfl⟩ := List.getElem?_eq_some_iff.mp ha
  have hperm := (List.getElem_cons_eraseIdx_perm hi).countP_eq holds
  rw [List.countP_cons, hna] at hperm
  unfold Conserved at h ⊢
  simp only [Bool.false_eq_true, if_false, Nat.add_zero] at hperm
  omega

/-- No more members hold a token than there are tokens. -/
theorem Conserved.le (h : Conserved total available holds members) : members.countP holds ≤ total := by
  unfold Conserved at h
  omega

theorem Conserved.free (h : Conserved total available holds members) (hn : ∀ x ∈ members, holds x = false) :
    available = total := by
  unfold Conserved at h
  have h0 : members.countP holds = 0 := List.countP_eq_zero.mpr fun x hx => by simp [hn x hx]
  omega

end GloamCommands.Lib
