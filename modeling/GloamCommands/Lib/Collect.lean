/-
  GloamCommands.Lib.Collect — results that may fail, mapped and collected.

  `collect` reads a list element by element and stops at the first error, so that what it
  returns is related to the list place by place (`collect_iff`).
-/

import Mathlib.Data.List.Forall2

namespace GloamCommands.Lib

variable {ε α β γ : Type*}

theorem map_ok {x : Except ε α} {f : α → β} {b : β} : x.map f = .ok b ↔ ∃ a, x = .ok a ∧ f a = b := by
  cases x <;> simp [Except.map]

def collect (f : α → Except ε β) : List α → Except ε (List β)
  | [] => .ok []
  | a :: rest =>
    match f a with
    | .error error => .error error
    | .ok b => (collect f rest).map (b :: ·)

theorem collect_iff {f : α → Except ε β} {l : List α} :
    ∀ {out : List β}, collect f l = .ok out ↔ List.Forall₂ (fun a b => f a = .ok b) l out := by
  induction l with
  | nil => intro out; simp [collect, eq_comm]
  | cons a rest ih =>
    intro out
    unfold collect
    constructor
    · intro h
      split at h
      · cases h
      · rename_i b hb
        obtain ⟨bs, hbs, rfl⟩ := map_ok.mp h
        exact .cons hb (ih.mp hbs)
    · intro h
      obtain ⟨b, bs, hb, hbs, rfl⟩ := List.forall₂_cons_left_iff.mp h
      rw [hb]
      exact map_ok.mpr ⟨bs, ih.mpr hbs, rfl⟩

/-- What is collected through a step is collected from what the step makes of each. -/
theorem collect_trans {f : α → Except ε β} {R : β → γ → Prop} {l : List α} {out : List β} {last : List γ}
    (h : collect f l = .ok out) (hr : List.Forall₂ R out last) :
    List.Forall₂ (fun a c => ∃ b, f a = .ok b ∧ R b c) l last := by
  have hl := collect_iff.mp h
  clear h
  induction hl generalizing last with
  | nil => cases hr; exact .nil
  | cons hab _ ih =>
    obtain ⟨c, cs, hc, hcs, rfl⟩ := List.forall₂_cons_left_iff.mp hr
    exact .cons ⟨_, hab, hc⟩ (ih hcs)

/-- The other way: what each can be made of through a step is made of what is collected. -/
theorem collect_split {f : α → Except ε β} {R : β → γ → Prop} {l : List α} {last : List γ}
    (h : List.Forall₂ (fun a c => ∃ b, f a = .ok b ∧ R b c) l last) :
    ∃ out, collect f l = .ok out ∧ List.Forall₂ R out last := by
  induction h with
  | nil => exact ⟨[], rfl, .nil⟩
  | cons hstep _ ih =>
    obtain ⟨b, hb, hr⟩ := hstep
    obtain ⟨out, hout, hrest⟩ := ih
    refine ⟨b :: out, ?_, .cons hr hrest⟩
    rw [collect, hb]
    exact map_ok.mpr ⟨out, hout, rfl⟩

/-- What is on the right of a list relation has something on the left. -/
theorem forall₂_mem_right {R : α → β → Prop} {l : List α} {out : List β} (h : List.Forall₂ R l out) {b : β} (hb : b ∈ out) :
    ∃ a ∈ l, R a b := by
  induction h with
  | nil => cases hb
  | cons hab _ ih =>
    rcases List.mem_cons.mp hb with rfl | hb
    · exact ⟨_, List.mem_cons_self .., hab⟩
    · obtain ⟨a, ha, hr⟩ := ih hb
      exact ⟨a, List.mem_cons_of_mem _ ha, hr⟩

theorem forall₂_mem_left {R : α → β → Prop} {l : List α} {out : List β} (h : List.Forall₂ R l out) {a : α} (ha : a ∈ l) :
    ∃ b ∈ out, R a b :=
  forall₂_mem_right h.flip ha

/-- What depends on no more than two lists have in common is the same along both. -/
theorem map_through {δ : Type*} {p : α → γ} {q : β → γ} {f : α → δ} {g : β → δ} (h : ∀ a b, p a = q b → f a = g b)
    {l : List α} {l' : List β} (heq : l.map p = l'.map q) : l.map f = l'.map g := by
  induction l generalizing l' with
  | nil =>
    cases l' with
    | nil => rfl
    | cons b rest => cases heq
  | cons a l ih =>
    cases l' with
    | nil => cases heq
    | cons b rest =>
      obtain ⟨hhead, htail⟩ := List.cons.inj heq
      rw [List.map_cons, List.map_cons, h a b hhead, ih htail]

def allSome : List (Option α) → Option (List α)
  | [] => some []
  | none :: _ => none
  | some a :: rest => (allSome rest).map (a :: ·)

theorem allSome_map_some (l : List α) : allSome (l.map some) = some l := by
  induction l with
  | nil => rfl
  | cons a rest ih => simp [allSome, ih]

end GloamCommands.Lib
