/-
  GloamCommands.Lib.Keyed — lists whose elements have distinct keys.

  A loop that refuses what it has seen carries the keys so far. `Fresh` is what such a
  loop accepts, and `fresh_cons` its step. A search by key is then exact:
  - `find_unique`: the only element with a property is the one found by it.
  - `find_key`: among distinct keys, an element is found by its own.
  - `increasing_unique`: a list in strict order of its keys is determined by its elements.
-/

import Mathlib.Data.List.Nodup

namespace GloamCommands.Lib

variable {α κ : Type*}

/-! ## What has been seen -/

/-- The keys of `l` are distinct, and none of them has been seen. -/
def Fresh (key : α → κ) (seen : List κ) (l : List α) : Prop := (l.map key).Nodup ∧ ∀ x ∈ l, key x ∉ seen

theorem fresh_nil (key : α → κ) (seen : List κ) : Fresh key seen [] :=
  ⟨List.nodup_nil, fun _ h => absurd h List.not_mem_nil⟩

theorem fresh_cons {key : α → κ} {seen : List κ} {x : α} {l : List α} :
    Fresh key seen (x :: l) ↔ key x ∉ seen ∧ Fresh key (key x :: seen) l := by
  unfold Fresh
  rw [List.map_cons, List.nodup_cons, List.forall_mem_cons]
  simp only [List.mem_map, not_exists, not_and, List.mem_cons, not_or]
  constructor
  · intro ⟨⟨hne, hnodup⟩, hx, hl⟩
    exact ⟨hx, hnodup, fun y hy => ⟨hne y hy, hl y hy⟩⟩
  · intro ⟨hx, hnodup, hl⟩
    exact ⟨⟨fun y hy => (hl y hy).1, hnodup⟩, hx, fun y hy => (hl y hy).2⟩

theorem fresh_unseen {key : α → κ} {l : List α} : Fresh key [] l ↔ (l.map key).Nodup :=
  ⟨fun h => h.1, fun h => ⟨h, fun _ _ => List.not_mem_nil⟩⟩

/-! ## Searching -/

theorem find_unique {p : α → Bool} {l : List α} {x : α} (hx : x ∈ l) (hp : p x = true)
    (hu : ∀ y ∈ l, p y = true → y = x) : l.find? p = some x := by
  cases hf : l.find? p with
  | none => exact absurd hp (List.find?_eq_none.mp hf x hx)
  | some found => rw [hu found (List.mem_of_find?_eq_some hf) (List.find?_some hf)]

theorem find_key [BEq κ] [LawfulBEq κ] {key : α → κ} {l : List α} (hl : (l.map key).Nodup) {x : α} (hx : x ∈ l) :
    l.find? (fun y => key y == key x) = some x :=
  find_unique hx (beq_self_eq_true _) fun _ hy hk => List.inj_on_of_nodup_map hl hy hx (beq_iff_eq.mp hk)

/-! ## Order -/

theorem increasing_nodup [LT κ] [Std.Irrefl (α := κ) (· < ·)] {key : α → κ} {l : List α}
    (h : l.Pairwise fun x y => key x < key y) : (l.map key).Nodup := by
  rw [List.Nodup, List.pairwise_map]
  refine h.imp ?_
  intro x y hlt heq
  rw [heq] at hlt
  exact Std.Irrefl.irrefl _ hlt

/-- A list in strict order of its keys is determined by its elements. -/
theorem increasing_unique [LT κ] [Std.Asymm (α := κ) (· < ·)] {key : α → κ} {l l' : List α}
    (h : l.Pairwise fun x y => key x < key y) (h' : l'.Pairwise fun x y => key x < key y) (hperm : l.Perm l') :
    l = l' :=
  hperm.eq_of_pairwise (fun _ _ _ _ hxy hyx => absurd hyx (Std.Asymm.asymm _ _ hxy)) h h'

end GloamCommands.Lib
