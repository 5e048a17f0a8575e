/-
  GloamCommands.Macros.Linking — the names by which the macros find each other
  (crates/gloam-commands-macros/src/commands.rs, and the adapter paths of command.rs).

  A macro generates functions beside an item, under names made of the item's. Others are
  given a path to the item and call the generated function in its place: `commands!` and
  a group the factory, `#[command]` the adapters of its checks and completions. The
  expansions do not see each other, so a name is all they share.

  What rustc does is a parameter: where the path before its last segment leads (`scope`),
  and what `use` brings into that module (`Module.imports`). It refuses a module that
  defines a name twice, and no function is written under a name that the macros reserve
  (`Module.Links`). Names that other items define are left out, and who may see a name.
  - `stem_append`: the names of two families or two items never meet.
  - `find_family`: so a generated name finds what was generated for the item, or what is
    imported under it.
  - `names_link`: every path that is rewritten leads to what the macro at the path's item
    has generated, if the item is of the module where the path ends and it is the right
    macro. A `use` of the function alone does not bring its adapter along.
-/

import GloamCommands.Macros.Acceptance
import GloamCommands.Macros.Handlers

namespace GloamCommands.Macros

open Lib (collect collect_iff)

/-! ## Paths -/

def Path.adapter (family : Family) (path : Path) : Path :=
  { path with
    segments := path.segments.dropLast ++
      (path.segments.getLast?.map fun segment => .mk (family.ident segment.ident) segment.arguments).toList }

def checkAdapterPath : Path → Path := Path.adapter .check

def autocompleteAdapterPath : Path → Path := Path.adapter .autocomplete

def factoryPath (command : Path) : Expansion Path :=
  match command.segments.getLast? with
  | none => .error (.message "expected a slash-command path")
  | some segment =>
    if !segment.arguments.isNone then .error (.message "slash-command paths cannot contain generic arguments")
    else .ok (command.adapter .command)

/-- `commands!`: the factories that are called for its `vec!`. -/
def expandCommands (paths : List Path) : Expansion (List Path) := collect factoryPath paths

/-! ## What is defined -/

inductive Named where
  | written (function : ItemFn)
  | handler (expansion : CommandExpansion)
  | command (expansion : CommandExpansion)
  | group (expansion : GroupExpansion) (items : List Item)
  | groupFactory
  | check (expansion : HandlerExpansion)
  | autocomplete (expansion : HandlerExpansion)

def Item.ident : Item → Option Ident
  | fn function => some function.ident
  | mod _ ident _ => some ident
  | external _ ident => some ident
  | other _ => none

def Item.written : Item → List (Ident × Named)
  | fn function => [(function.ident, .written function)]
  | _ => []

/-- What an attribute macro makes of an item; nothing where it is absent or refused. -/
def expanded {α : Type} (attrs : List Attribute) (macroName : String) (expand : Arguments → Expansion α) : Option α :=
  (findAttribute attrs macroName).bind fun attr => (expand attr.style.tokens).toOption

section Crate

variable (unicode : Unicode)

def generate (family : Family) : Item → Option Named
  | .fn function =>
    match family with
    | .command => (expanded function.attrs "command" fun args => expandCommand unicode args function).map .command
    | .handler => (expanded function.attrs "command" fun args => expandCommand unicode args function).map .handler
    | .check => (expanded function.attrs "check" fun args => expandCheck args function).map .check
    | .autocomplete =>
      (expanded function.attrs "autocomplete" fun args => expandAutocomplete args function).map .autocomplete
    | .groupFactory => none
  | .mod attrs ident items =>
    match family with
    | .command => (expanded attrs "group" fun args => expandGroup unicode args ident (some items)).map (.group · items)
    | _ => none
  | .external _ _ => none
  | .other _ => none

def families : List Family := [.command, .handler, .check, .autocomplete, .groupFactory]

/-- Every attribute macro of a name is expanded by rustc; here the first, so an item carries
    each at most once. -/
def Item.generated (item : Item) : List (Ident × Named) :=
  families.filterMap fun family => item.ident.bind fun ident => (generate unicode family item).map (family.ident ident, ·)

structure Module where
  items : List Item
  /-- The group that the module is the body of. -/
  group : Option Ident
  /-- What `use` brings in, singly or with a glob, by the plain form of its name here. -/
  imports : String → Option Named

def Module.names (m : Module) : List (Ident × Named) :=
  m.items.flatMap (fun item => item.written ++ item.generated unicode) ++
    (m.group.map fun group => (Family.groupFactory.ident group, .groupFactory)).toList

/-- Raw identifiers name what the plain ones do. What a module defines comes first. -/
def Module.find (m : Module) (ident : Ident) : Option Named :=
  match (m.names unicode).find? fun name => name.1.unraw == ident.unraw with
  | some name => some name.2
  | none => m.imports ident.unraw

/-- What every generated name begins with. -/
def reserved : List Char := "__gloam_".toList

structure Module.Links (m : Module) : Prop where
  once : ((m.names unicode).map (·.1.unraw)).Nodup
  free : ∀ function, Item.fn function ∈ m.items → ¬ reserved <+: function.ident.unraw.toList

/-- What a path names: the qualifier leads to a module, and the last segment is found there. -/
def resolve (scope : Bool → List PathSegment → Option Module) (path : Path) : Option Named :=
  path.segments.getLast?.bind fun segment =>
    (scope path.leadingColon path.segments.dropLast).bind fun m => m.find unicode segment.ident

end Crate

/-! ## Names do not meet -/

theorem stem_append {f g : Family} {s t : String} : f.stem ++ s = g.stem ++ t ↔ f = g ∧ s = t := by
  constructor
  · intro h
    have hlist : f.stem.toList ++ s.toList = g.stem.toList ++ t.toList := by
      rw [← String.toList_append, ← String.toList_append, h]
    have hfamily : f = g := by
      rcases List.append_eq_append_iff.mp hlist with ⟨middle, hg, -⟩ | ⟨middle, hf, -⟩
      · have htake : g.stem.toList.take f.stem.toList.length = f.stem.toList := by rw [hg, List.take_left]
        revert htake
        cases f <;> cases g <;> decide
      · have htake : f.stem.toList.take g.stem.toList.length = g.stem.toList := by rw [hf, List.take_left]
        revert htake
        cases f <;> cases g <;> decide
    subst hfamily
    exact ⟨rfl, String.toList_injective (List.append_cancel_left hlist)⟩
  · rintro ⟨rfl, rfl⟩
    rfl

theorem stem_reserved (family : Family) (name : String) : reserved <+: (family.stem ++ name).toList := by
  rw [String.toList_append]
  refine List.IsPrefix.trans ?_ (List.prefix_append _ _)
  cases family <;> decide

/-! ## Finding -/

section Found

variable {unicode : Unicode}

theorem generated_iff {item : Item} {name : Ident} {target : Named} :
    (name, target) ∈ item.generated unicode ↔
      ∃ (family : Family) (ident : Ident), item.ident = some ident ∧ name = family.ident ident ∧
        generate unicode family item = some target := by
  unfold Item.generated
  rw [List.mem_filterMap]
  constructor
  · rintro ⟨family, -, h⟩
    obtain ⟨ident, hident, h⟩ := Option.bind_eq_some_iff.mp h
    obtain ⟨target', htarget, h⟩ := Option.map_eq_some_iff.mp h
    obtain ⟨rfl, rfl⟩ := Prod.mk.inj h
    exact ⟨family, ident, hident, rfl, htarget⟩
  · rintro ⟨family, ident, hident, rfl, htarget⟩
    refine ⟨family, by cases family <;> decide, ?_⟩
    rw [hident, Option.bind_some, htarget]
    rfl

theorem generate_not_written {family : Family} {item : Item} {function : ItemFn} :
    generate unicode family item ≠ some (.written function) := by
  intro h
  cases item with
  | fn other =>
    cases family with
    | groupFactory => cases h
    | _ =>
      obtain ⟨_, -, hnamed⟩ := Option.map_eq_some_iff.mp h
      cases hnamed
  | mod attrs ident items =>
    cases family with
    | command =>
      obtain ⟨_, -, hnamed⟩ := Option.map_eq_some_iff.mp h
      cases hnamed
    | _ => cases h
  | external => cases h
  | other => cases h

/-- With every name defined once, a name finds what is defined under it, or imported. -/
theorem find_iff {m : Module} (hm : m.Links unicode) {ident : Ident} {target : Named} :
    m.find unicode ident = some target ↔
      (∃ name, (name, target) ∈ m.names unicode ∧ name.unraw = ident.unraw) ∨
        ((∀ name other, (name, other) ∈ m.names unicode → name.unraw ≠ ident.unraw) ∧
          m.imports ident.unraw = some target) := by
  unfold Module.find
  cases hfind : (m.names unicode).find? fun name => name.1.unraw == ident.unraw with
  | some entry =>
    obtain ⟨own, found⟩ := entry
    have hmem := List.mem_of_find?_eq_some hfind
    have hown : own.unraw = ident.unraw := by simpa using List.find?_some hfind
    dsimp only
    constructor
    · intro h
      cases h
      exact .inl ⟨own, hmem, hown⟩
    · rintro (⟨name, hname, hsame⟩ | ⟨hnone, -⟩)
      · have hentry := List.inj_on_of_nodup_map hm.once hname hmem (hsame.trans hown.symm)
        exact congrArg some (Prod.mk.inj hentry).2.symm
      · exact absurd hown (hnone own found hmem)
  | none =>
    have hnone : ∀ name other, (name, other) ∈ m.names unicode → name.unraw ≠ ident.unraw :=
      fun name other hmem => by simpa using List.find?_eq_none.mp hfind (name, other) hmem
    constructor
    · exact fun h => .inr ⟨hnone, h⟩
    · rintro (⟨name, hname, hsame⟩ | ⟨-, h⟩)
      · exact absurd hsame (hnone name target hname)
      · exact h

theorem mem_names {m : Module} {name : Ident} {target : Named} :
    (name, target) ∈ m.names unicode ↔
      (∃ item ∈ m.items, (name, target) ∈ item.written ∨ (name, target) ∈ item.generated unicode) ∨
        ∃ group, m.group = some group ∧ name = Family.groupFactory.ident group ∧ target = .groupFactory := by
  unfold Module.names
  rw [List.mem_append, List.mem_flatMap]
  refine or_congr (exists_congr fun item => and_congr_right fun _ => List.mem_append) ?_
  rw [Option.mem_toList, Option.map_eq_some_iff]
  constructor
  · rintro ⟨group, hgroup, h⟩
    obtain ⟨rfl, rfl⟩ := Prod.mk.inj h
    exact ⟨group, hgroup, rfl, rfl⟩
  · rintro ⟨group, hgroup, rfl, rfl⟩
    exact ⟨group, hgroup, rfl⟩

/-- What the macro of the family makes of an item of that name in the module. -/
def Module.Makes (unicode : Unicode) (m : Module) (family : Family) (ident : Ident) (target : Named) : Prop :=
  ∃ item ∈ m.items, (∃ name, item.ident = some name ∧ name.unraw = ident.unraw) ∧ generate unicode family item = some target

theorem names_family {m : Module} (hm : m.Links unicode) {family : Family} (hfamily : family ≠ .groupFactory) {ident : Ident}
    {target : Named} :
    (∃ name, (name, target) ∈ m.names unicode ∧ name.unraw = (family.ident ident).unraw) ↔
      m.Makes unicode family ident target := by
  constructor
  · rintro ⟨name, hmem, hname⟩
    change name.unraw = family.stem ++ ident.unraw at hname
    rcases mem_names.mp hmem with ⟨item, hitem, hwritten | hgenerated⟩ | ⟨group, -, rfl, -⟩
    · -- nobody writes such a name
      cases item with
      | fn function =>
        obtain ⟨rfl, -⟩ := Prod.mk.inj (List.mem_singleton.mp hwritten)
        exact absurd (hname ▸ stem_reserved family ident.unraw) (hm.free function hitem)
      | _ => cases hwritten
    · obtain ⟨other, own, hown, rfl, hmakes⟩ := generated_iff.mp hgenerated
      obtain ⟨rfl, hsame⟩ := stem_append.mp hname
      exact ⟨item, hitem, ⟨own, hown, hsame⟩, hmakes⟩
    · exact absurd (stem_append.mp hname).1.symm hfamily
  · rintro ⟨item, hitem, ⟨own, hown, hsame⟩, hmakes⟩
    refine ⟨family.ident own, mem_names.mpr (.inl ⟨item, hitem, .inr (generated_iff.mpr ⟨family, own, hown, rfl, hmakes⟩)⟩), ?_⟩
    exact congrArg (family.stem ++ ·) hsame

/-- A generated name finds what the macro of its family makes of an item of that name; where
    it makes nothing, what is imported under the generated name itself. -/
theorem find_family {m : Module} (hm : m.Links unicode) {family : Family} (hfamily : family ≠ .groupFactory) {ident : Ident}
    {target : Named} :
    m.find unicode (family.ident ident) = some target ↔
      m.Makes unicode family ident target ∨
        ((∀ other, ¬ m.Makes unicode family ident other) ∧ m.imports (family.ident ident).unraw = some target) := by
  rw [find_iff hm, names_family hm hfamily]
  refine or_congr_right (and_congr_left fun _ => ⟨fun h other hmakes => ?_, fun h name other hmem hname => ?_⟩)
  · obtain ⟨name, hmem, hname⟩ := (names_family hm hfamily).mpr hmakes
    exact h name other hmem hname
  · exact h other ((names_family hm hfamily).mp ⟨name, hmem, hname⟩)

theorem find_written {m : Module} (hm : m.Links unicode) {ident : Ident} {function : ItemFn} :
    m.find unicode ident = some (.written function) ↔
      (Item.fn function ∈ m.items ∧ function.ident.unraw = ident.unraw) ∨
        ((∀ name other, (name, other) ∈ m.names unicode → name.unraw ≠ ident.unraw) ∧
          m.imports ident.unraw = some (.written function)) := by
  rw [find_iff hm]
  refine or_congr_left ⟨?_, fun ⟨hitem, hname⟩ =>
    ⟨function.ident, mem_names.mpr (.inl ⟨_, hitem, .inl (List.mem_singleton_self _)⟩), hname⟩⟩
  rintro ⟨name, hmem, hname⟩
  rcases mem_names.mp hmem with ⟨item, hitem, hwritten | hgenerated⟩ | ⟨group, -, -, htarget⟩
  · cases item with
    | fn other =>
      obtain ⟨rfl, hsame⟩ := Prod.mk.inj (List.mem_singleton.mp hwritten)
      cases hsame
      exact ⟨hitem, hname⟩
    | _ => cases hwritten
  · obtain ⟨family, own, -, -, hmakes⟩ := generated_iff.mp hgenerated
    exact absurd hmakes generate_not_written
  · cases htarget

end Found

/-! ## When no name is defined twice -/

section Once

variable {unicode : Unicode}

inductive Clash : Item → Item → Prop
  | fn {function other : ItemFn} : function.ident.unraw = other.ident.unraw → Clash (.fn function) (.fn other)
  | mod {attrs attrs' : List Attribute} {ident ident' : Ident} {items items' : List Item} :
      ident.unraw = ident'.unraw → Clash (.mod attrs ident items) (.mod attrs' ident' items')

/-- A command and a group of one name. -/
def SharesFactory (unicode : Unicode) (a b : Item) : Prop :=
  ∃ function attrs ident items, a = .fn function ∧ b = .mod attrs ident items ∧ function.ident.unraw = ident.unraw ∧
    (generate unicode .command a).isSome = true ∧ (generate unicode .command b).isSome = true

theorem generated_family {item : Item} {entry : Ident × Named} (h : entry ∈ item.generated unicode) :
    ∃ family ident, item.ident = some ident ∧ entry.1.unraw = family.stem ++ ident.unraw ∧ family ≠ .groupFactory ∧
      (generate unicode family item).isSome = true := by
  obtain ⟨name, target⟩ := entry
  obtain ⟨family, ident, hident, rfl, hmakes⟩ := generated_iff.mp h
  refine ⟨family, ident, hident, rfl, ?_, by rw [hmakes]; rfl⟩
  rintro rfl
  cases item <;> cases hmakes

/-- What is generated is not written. -/
theorem written_generated {a b : Item} (hfree : ∀ function, a = .fn function → ¬ reserved <+: function.ident.unraw.toList)
    {x y : Ident × Named} (hx : x ∈ a.written) (hy : y ∈ b.generated unicode) : x.1.unraw ≠ y.1.unraw := by
  intro heq
  obtain ⟨family, ident, -, hy, -, -⟩ := generated_family hy
  cases a with
  | fn function =>
    rw [List.mem_singleton.mp hx] at heq
    exact hfree function rfl (heq.trans hy ▸ stem_reserved family ident.unraw)
  | _ => cases hx

theorem item_names_once {item : Item} (hfree : ∀ function, item = .fn function → ¬ reserved <+: function.ident.unraw.toList) :
    (item.written ++ item.generated unicode).Pairwise fun x y => x.1.unraw ≠ y.1.unraw := by
  refine List.pairwise_append.mpr ⟨?_, ?_, fun x hx y hy => written_generated hfree hx hy⟩
  · cases item with
    | fn function => exact List.pairwise_singleton _ _
    | _ => exact List.Pairwise.nil
  · have hfamilies : families.Pairwise (· ≠ ·) := by decide
    refine List.pairwise_filterMap.mpr (hfamilies.imp fun {f g} hne x hx y hy heq => ?_)
    obtain ⟨ident, -, hx⟩ := Option.bind_eq_some_iff.mp hx
    obtain ⟨_, -, rfl⟩ := Option.map_eq_some_iff.mp hx
    obtain ⟨ident', -, hy⟩ := Option.bind_eq_some_iff.mp hy
    obtain ⟨_, -, rfl⟩ := Option.map_eq_some_iff.mp hy
    exact hne (stem_append.mp heq).1

/-- Two items whose generated names meet are of one kind and name, or a command and a group. -/
theorem generated_meet {a b : Item} {x y : Ident × Named} (hx : x ∈ a.generated unicode) (hy : y ∈ b.generated unicode)
    (heq : x.1.unraw = y.1.unraw) : Clash a b ∨ SharesFactory unicode a b ∨ SharesFactory unicode b a := by
  obtain ⟨family, own, hown, hx, -, hmakes⟩ := generated_family hx
  obtain ⟨family', own', hown', hy, -, hmakes'⟩ := generated_family hy
  obtain ⟨rfl, hsame⟩ := stem_append.mp (hx.symm.trans (heq.trans hy))
  have hgroup : ∀ attrs ident items, (generate unicode family (.mod attrs ident items)).isSome = true → family = .command := by
    intro attrs ident items h
    cases family with
    | command => rfl
    | _ => cases h
  cases a with
  | fn function =>
    cases hown
    cases b with
    | fn other =>
      cases hown'
      exact .inl (.fn hsame)
    | mod attrs ident items =>
      cases hown'
      obtain rfl := hgroup _ _ _ hmakes'
      exact .inr (.inl ⟨_, _, _, _, rfl, rfl, hsame, hmakes, hmakes'⟩)
    | external => cases hmakes'
    | other => cases hown'
  | mod attrs ident items =>
    cases hown
    obtain rfl := hgroup _ _ _ hmakes
    cases b with
    | fn other =>
      cases hown'
      exact .inr (.inr ⟨_, _, _, _, rfl, rfl, hsame.symm, hmakes', hmakes⟩)
    | mod attrs' ident' items' =>
      cases hown'
      exact .inl (.mod hsame)
    | external => cases hmakes'
    | other => cases hown'
  | external => cases hmakes
  | other => cases hown

/-- In a module that Rust accepts before its macros are expanded, the generated names are
    different too, exactly if no command stands beside a group of its name. -/
theorem names_once_iff {m : Module} (hrust : m.items.Pairwise fun a b => ¬ Clash a b)
    (hfree : ∀ function, Item.fn function ∈ m.items → ¬ reserved <+: function.ident.unraw.toList) :
    ((m.names unicode).map (·.1.unraw)).Nodup ↔ ∀ a ∈ m.items, ∀ b ∈ m.items, ¬ SharesFactory unicode a b := by
  constructor
  · intro hnodup a ha b hb hshares
    obtain ⟨function, attrs, ident, items, rfl, rfl, hsame, hsome, hsome'⟩ := hshares
    obtain ⟨target, htarget⟩ := Option.isSome_iff_exists.mp hsome
    obtain ⟨target', htarget'⟩ := Option.isSome_iff_exists.mp hsome'
    have hmem := mem_names.mpr (.inl ⟨_, ha, .inr (generated_iff.mpr ⟨.command, _, rfl, rfl, htarget⟩)⟩)
    have hmem' := mem_names.mpr (.inl ⟨_, hb, .inr (generated_iff.mpr ⟨.command, _, rfl, rfl, htarget'⟩)⟩)
    -- one entry would be both a command and a group
    have hentry := List.inj_on_of_nodup_map hnodup hmem hmem' (congrArg (Family.command.stem ++ ·) hsame)
    obtain ⟨-, rfl⟩ := Prod.mk.inj hentry
    obtain ⟨_, -, rfl⟩ := Option.map_eq_some_iff.mp htarget
    obtain ⟨_, -, hnamed⟩ := Option.map_eq_some_iff.mp htarget'
    cases hnamed
  · intro hnone
    have hwritten : ∀ item ∈ m.items, ∀ function, item = .fn function → ¬ reserved <+: function.ident.unraw.toList :=
      fun item hitem function heq => hfree function (heq ▸ hitem)
    refine List.pairwise_map.mpr (List.pairwise_append.mpr ⟨List.pairwise_flatMap.mpr ⟨?_, ?_⟩, ?_, ?_⟩)
    · exact fun item hitem => item_names_once (hwritten item hitem)
    · refine hrust.imp_of_mem fun {a b} ha hb hclash x hx y hy heq => ?_
      rcases List.mem_append.mp hx with hx | hx
      · rcases List.mem_append.mp hy with hy | hy
        · cases a with
          | fn function =>
            cases b with
            | fn other =>
              rw [List.mem_singleton.mp hx, List.mem_singleton.mp hy] at heq
              exact hclash (.fn heq)
            | _ => cases hy
          | _ => cases hx
        · exact written_generated (hwritten a ha) hx hy heq
      · rcases List.mem_append.mp hy with hy | hy
        · exact written_generated (hwritten b hb) hy hx heq.symm
        · rcases generated_meet hx hy heq with h | h | h
          · exact hclash h
          · exact hnone a ha b hb h
          · exact hnone b hb a ha h
    · cases m.group <;> simp
    · intro x hx y hy heq
      obtain ⟨group, -, rfl⟩ := Option.map_eq_some_iff.mp (Option.mem_toList.mp hy)
      obtain ⟨item, hitem, hx⟩ := List.mem_flatMap.mp hx
      rcases List.mem_append.mp hx with hx | hx
      · cases item with
        | fn function =>
          rw [List.mem_singleton.mp hx] at heq
          exact hfree function hitem (heq ▸ stem_reserved .groupFactory group.unraw)
        | _ => cases hx
      · obtain ⟨family, ident, -, hname, hfamily, -⟩ := generated_family hx
        exact hfamily (stem_append.mp (hname.symm.trans heq)).1

end Once

/-! ## Linking -/

section Links

variable {unicode : Unicode} {scope : Bool → List PathSegment → Option Module}

/-- What is found under the path once its last segment is renamed, is found in the same
    module. -/
theorem resolve_adapter (family : Family) (path : Path) :
    resolve unicode scope (path.adapter family) =
      path.segments.getLast?.bind fun segment =>
        (scope path.leadingColon path.segments.dropLast).bind fun m => m.find unicode (family.ident segment.ident) := by
  obtain ⟨lead, segments⟩ := path
  unfold resolve Path.adapter
  rcases List.eq_nil_or_concat segments with rfl | ⟨qualifier, segment, rfl⟩
  · rfl
  · simp [PathSegment.ident]

/-- The path leads to the module, and there its last segment is looked up. -/
def Path.EndsIn (scope : Bool → List PathSegment → Option Module) (path : Path) (segment : PathSegment) (m : Module) : Prop :=
  path.segments.getLast? = some segment ∧ scope path.leadingColon path.segments.dropLast = some m

/-- A path finds a function that the module where it ends has under its name, or imports. -/
theorem resolve_written (hscope : ∀ lead qualifier m, scope lead qualifier = some m → m.Links unicode) {path : Path}
    {function : ItemFn} :
    resolve unicode scope path = some (.written function) ↔ ∃ segment m, path.EndsIn scope segment m ∧
      ((Item.fn function ∈ m.items ∧ function.ident.unraw = segment.ident.unraw) ∨
        ((∀ name other, (name, other) ∈ m.names unicode → name.unraw ≠ segment.ident.unraw) ∧
          m.imports segment.ident.unraw = some (.written function))) := by
  unfold resolve
  rw [Option.bind_eq_some_iff]
  constructor
  · rintro ⟨segment, hsegment, h⟩
    obtain ⟨m, hm, hfind⟩ := Option.bind_eq_some_iff.mp h
    exact ⟨segment, m, ⟨hsegment, hm⟩, (find_written (hscope _ _ m hm)).mp hfind⟩
  · rintro ⟨segment, m, hends, h⟩
    exact ⟨segment, hends.1, Option.bind_eq_some_iff.mpr ⟨m, hends.2, (find_written (hscope _ _ m hends.2)).mpr h⟩⟩

/-- The module where the path ends has a function of its name, of which a macro of the
    family made the target. -/
def NamesFunction (unicode : Unicode) (scope : Bool → List PathSegment → Option Module) (family : Family) (path : Path)
    (target : Named) : Prop :=
  ∃ segment m function, path.EndsIn scope segment m ∧ Item.fn function ∈ m.items ∧
    function.ident.unraw = segment.ident.unraw ∧ generate unicode family (.fn function) = some target

def NamesGroup (unicode : Unicode) (scope : Bool → List PathSegment → Option Module) (path : Path) (target : Named) : Prop :=
  ∃ segment m attrs ident items, path.EndsIn scope segment m ∧ Item.mod attrs ident items ∈ m.items ∧
    ident.unraw = segment.ident.unraw ∧ generate unicode .command (.mod attrs ident items) = some target

/-- Nothing is made for an item of that name there, and a `use` brings in the target under
    the generated name itself. -/
def ImportsAdapter (unicode : Unicode) (scope : Bool → List PathSegment → Option Module) (family : Family) (path : Path)
    (target : Named) : Prop :=
  ∃ segment m, path.EndsIn scope segment m ∧ (∀ other, ¬ m.Makes unicode family segment.ident other) ∧
    m.imports (family.ident segment.ident).unraw = some target

theorem makes_iff {m : Module} {family : Family} {ident : Ident} {target : Named} :
    m.Makes unicode family ident target ↔
      (∃ function, Item.fn function ∈ m.items ∧ function.ident.unraw = ident.unraw ∧
        generate unicode family (.fn function) = some target) ∨
      (family = .command ∧ ∃ attrs own items, Item.mod attrs own items ∈ m.items ∧ own.unraw = ident.unraw ∧
        generate unicode .command (.mod attrs own items) = some target) := by
  constructor
  · rintro ⟨item, hitem, ⟨name, hname, hsame⟩, hmakes⟩
    cases item with
    | fn function =>
      cases hname
      exact .inl ⟨function, hitem, hsame, hmakes⟩
    | mod attrs own items =>
      cases hname
      obtain rfl : family = .command := by
        cases family with
        | command => rfl
        | _ => cases hmakes
      exact .inr ⟨rfl, attrs, _, items, hitem, hsame, hmakes⟩
    | external => cases hmakes
    | other => cases hmakes
  · rintro (⟨function, hitem, hsame, hmakes⟩ | ⟨rfl, attrs, own, items, hitem, hsame, hmakes⟩)
    · exact ⟨_, hitem, ⟨_, rfl, hsame⟩, hmakes⟩
    · exact ⟨_, hitem, ⟨_, rfl, hsame⟩, hmakes⟩

theorem adapter_links (hscope : ∀ lead qualifier m, scope lead qualifier = some m → m.Links unicode) {family : Family}
    (hfamily : family ≠ .groupFactory) {path : Path} {target : Named} :
    resolve unicode scope (path.adapter family) = some target ↔
      NamesFunction unicode scope family path target ∨ (family = .command ∧ NamesGroup unicode scope path target) ∨
        ImportsAdapter unicode scope family path target := by
  rw [resolve_adapter, Option.bind_eq_some_iff]
  constructor
  · rintro ⟨segment, hsegment, h⟩
    obtain ⟨m, hm, hfind⟩ := Option.bind_eq_some_iff.mp h
    have hends : path.EndsIn scope segment m := ⟨hsegment, hm⟩
    rcases (find_family (hscope _ _ m hm) hfamily).mp hfind with hmakes | ⟨hnone, himports⟩
    · rcases makes_iff.mp hmakes with ⟨function, hfunction⟩ | ⟨hcommand, attrs, ident, items, hgroup⟩
      · exact .inl ⟨segment, m, function, hends, hfunction⟩
      · exact .inr (.inl ⟨hcommand, segment, m, attrs, ident, items, hends, hgroup⟩)
    · exact .inr (.inr ⟨segment, m, hends, hnone, himports⟩)
  · have hfound : ∀ segment m, path.EndsIn scope segment m →
        (m.Makes unicode family segment.ident target ∨ ((∀ other, ¬ m.Makes unicode family segment.ident other) ∧
          m.imports (family.ident segment.ident).unraw = some target)) →
        ∃ segment, path.segments.getLast? = some segment ∧ ((scope path.leadingColon path.segments.dropLast).bind fun m =>
          m.find unicode (family.ident segment.ident)) = some target :=
      fun segment m hends h =>
        ⟨segment, hends.1, Option.bind_eq_some_iff.mpr ⟨m, hends.2, (find_family (hscope _ _ m hends.2) hfamily).mpr h⟩⟩
    rintro (⟨segment, m, function, hends, hfunction⟩ | ⟨hcommand, segment, m, attrs, ident, items, hends, hgroup⟩ |
      ⟨segment, m, hends, hnone, himports⟩)
    · exact hfound segment m hends (.inl (makes_iff.mpr (.inl ⟨function, hfunction⟩)))
    · exact hfound segment m hends (.inl (makes_iff.mpr (.inr ⟨hcommand, attrs, ident, items, hgroup⟩)))
    · exact hfound segment m hends (.inr ⟨hnone, himports⟩)

/-- In a crate where no name is defined twice, and none is written that the macros
    reserve: a path finds the function of its name where it ends, and a check's or a
    completion's path the adapter of that function, if it has the right attribute. Without
    such a function it finds what is imported there under the adapter's own name, or
    nothing, even if the function is imported. So do the paths of `commands!`, of functions
    or of groups, each in its place; and every child of a group is found there by its
    factory's name. -/
theorem names_link (hscope : ∀ lead qualifier m, scope lead qualifier = some m → m.Links unicode) :
    (∀ path function, resolve unicode scope path = some (.written function) ↔ ∃ segment m, path.EndsIn scope segment m ∧
      ((Item.fn function ∈ m.items ∧ function.ident.unraw = segment.ident.unraw) ∨
        ((∀ name other, (name, other) ∈ m.names unicode → name.unraw ≠ segment.ident.unraw) ∧
          m.imports segment.ident.unraw = some (.written function)))) ∧
    (∀ path target, resolve unicode scope (checkAdapterPath path) = some target ↔
      NamesFunction unicode scope .check path target ∨ ImportsAdapter unicode scope .check path target) ∧
    (∀ path target, resolve unicode scope (autocompleteAdapterPath path) = some target ↔
      NamesFunction unicode scope .autocomplete path target ∨ ImportsAdapter unicode scope .autocomplete path target) ∧
    (∀ paths factories, expandCommands paths = .ok factories → List.Forall₂ (fun path factory => ∀ target,
      resolve unicode scope factory = some target ↔
        NamesFunction unicode scope .command path target ∨ NamesGroup unicode scope path target ∨
          ImportsAdapter unicode scope .command path target) paths factories) ∧
    ∀ lead qualifier m, scope lead qualifier = some m → ∀ item ∈ childFactories m.items, ∀ ident target,
      item.ident = some ident → generate unicode .command item = some target →
        m.find unicode (Family.command.ident ident) = some target := by
  refine ⟨fun path function => resolve_written hscope, fun path target => ?_, fun path target => ?_,
    fun paths factories h => ?_, ?_⟩
  · rw [checkAdapterPath, adapter_links hscope (by decide)]
    exact or_congr_right (or_iff_right fun h => by cases h.1)
  · rw [autocompleteAdapterPath, adapter_links hscope (by decide)]
    exact or_congr_right (or_iff_right fun h => by cases h.1)
  · refine (collect_iff.mp h).imp fun path factory hfactory target => ?_
    unfold factoryPath at hfactory
    split at hfactory
    · cases hfactory
    · split at hfactory
      · cases hfactory
      · cases hfactory
        rw [adapter_links hscope (by decide)]
        exact or_congr_right (or_congr_left ⟨fun h => h.2, fun h => ⟨rfl, h⟩⟩)
  · intro lead qualifier m hm item hitem name target hname hmakes
    exact (find_family (hscope lead qualifier m hm) (by decide)).mpr
      (.inl ⟨item, List.mem_of_mem_filter hitem, ⟨name, hname, rfl⟩, hmakes⟩)

end Links

/-- A command `admin` beside the group `admin`: Rust has nothing against the two, but both
    have a factory of that name. -/
theorem names_once_iff_admin :
    let command : ItemFn := handlerFn (described "command" "Administers") "admin" []
    let m : Module := ⟨[.fn command, admin], none, fun _ => none⟩
    m.items.Pairwise (fun a b => ¬ Clash a b) ∧ ¬ ((m.names ascii).map (·.1.unraw)).Nodup := by
  intro command m
  have hrust : m.items.Pairwise fun a b => ¬ Clash a b := by
    refine List.pairwise_pair.mpr fun h => ?_
    cases h
  have hfree : ∀ function, Item.fn function ∈ m.items → ¬ reserved <+: function.ident.unraw.toList := by
    intro function hf
    rcases List.mem_cons.mp hf with hf | hf
    · cases hf
      decide
    · cases List.mem_singleton.mp hf
  refine ⟨hrust, fun hnodup => ?_⟩
  refine (names_once_iff hrust hfree).mp hnodup (.fn command) List.mem_cons_self admin
    (List.mem_cons_of_mem _ (List.mem_singleton_self _)) ?_
  exact ⟨_, _, _, _, rfl, rfl, rfl, by decide, by decide⟩

def guard : ItemFn :=
  { handlerFn ⟨plain "check", .path⟩ "guard" [] with
    output := some (typeNamed "Result" (.angleBracketed [.type (typeNamed "bool" .none)])) }

def root : Module := ⟨[.fn guard, .fn set, admin], none, fun _ => none⟩

/-- `use super::guard;`, and nothing else. -/
def user : Module := ⟨[], none, fun name => if name = "guard" then some (.written guard) else none⟩

/-- `check = guard` leads to the check's adapter, and `check = set` nowhere; nor does
    `check = user::guard`, although the path names the check. -/
theorem names_link_root :
    let scope := fun (lead : Bool) (qualifier : List PathSegment) =>
      if lead then none else if qualifier.isEmpty then some root else some user
    let imported : Path := ⟨false, [.mk ⟨false, "user"⟩ .none, .mk ⟨false, "guard"⟩ .none]⟩
    (∃ expansion, expandCheck (some []) guard = .ok expansion ∧
      resolve ascii scope (checkAdapterPath (plain "guard")) = some (.check expansion)) ∧
    (∀ target, resolve ascii scope (checkAdapterPath (plain "set")) ≠ some target) ∧
    resolve ascii scope imported = some (.written guard) ∧
    ∀ target, resolve ascii scope (checkAdapterPath imported) ≠ some target := by
  intro scope imported
  have hroot : root.Links ascii := by
    refine ⟨by decide, fun function hf => ?_⟩
    rcases List.mem_cons.mp hf with hf | hf
    · cases hf
      decide
    · rcases List.mem_cons.mp hf with hf | hf
      · cases hf
        decide
      · cases List.mem_singleton.mp hf
  have huser : user.Links ascii := ⟨List.nodup_nil, fun function hf => by cases hf⟩
  have hscope : ∀ lead qualifier m, scope lead qualifier = some m → m.Links ascii := by
    intro lead qualifier m hm
    simp only [scope] at hm
    split at hm
    · cases hm
    · split at hm
      · cases hm
        exact hroot
      · cases hm
        exact huser
  obtain ⟨-, hcheck, -⟩ := names_link hscope
  refine ⟨⟨_, rfl, (hcheck (plain "guard") _).mpr (.inl ⟨_, root, guard, ⟨rfl, rfl⟩, List.mem_cons_self, rfl, rfl⟩)⟩,
    fun target htarget => ?_, rfl, fun target htarget => ?_⟩
  · rcases (hcheck (plain "set") target).mp htarget with ⟨segment, m, function, ⟨hsegment, hm⟩, hitem, hsame, hmakes⟩ |
      ⟨segment, m, ⟨-, hm⟩, -, himports⟩
    · cases hsegment
      cases hm
      rcases List.mem_cons.mp hitem with hf | hf
      · cases hf
        revert hsame
        decide
      · rcases List.mem_cons.mp hf with hf | hf
        · cases hf
          cases hmakes
        · cases List.mem_singleton.mp hf
    · cases hm
      cases himports
  · rcases (hcheck imported target).mp htarget with ⟨segment, m, function, ⟨-, hm⟩, hitem, -⟩ |
      ⟨segment, m, ⟨hsegment, hm⟩, -, himports⟩
    · cases hm
      cases hitem
    · cases hsegment
      cases hm
      cases himports

end GloamCommands.Macros
