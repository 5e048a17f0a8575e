/-
  GloamCommands.Macros.Handlers — `#[check]` and `#[autocomplete]`
  (crates/gloam-commands-macros/src/check.rs, autocomplete.rs).

  Both take an async function of one context and generate an adapter beside it. They are
  one expansion (`expandHandler`) with their own context, return type and messages.
  - `expandHandler_iff`: the functions that are accepted, and the adapter they get.
-/

import GloamCommands.Lib.Collect
import GloamCommands.Macros.Command

namespace GloamCommands.Macros

open Lib (map_ok)

/-! ## Generated names -/

inductive Family where
  | command
  | handler
  | check
  | autocomplete
  | groupFactory
  deriving DecidableEq, Repr

namespace Family

def stem : Family → String
  | command => "__gloam_command_"
  | handler => "__gloam_handler_"
  | check => "__gloam_check_"
  | autocomplete => "__gloam_autocomplete_"
  | groupFactory => "__gloam_group_factory_"

def ident (family : Family) (item : Ident) : Ident := ⟨false, family.stem ++ item.unraw⟩

end Family

/-! ## The expansion -/

structure HandlerMacro where
  family : Family
  contextName : String
  /-- The type that a `Result` is returned of. -/
  returns : RustType → Bool
  arguments : String
  notAsync : String
  isConst : String
  isUnsafe : String
  hasAbi : String
  isGeneric : String
  isVariadic : String
  inputs : String
  missing : String
  receiver : String
  context : String
  state : String
  output : String

/-- A path type whose last segment is the name, without arguments. -/
def RustType.isNamed (name : String) : RustType → Bool
  | .path segments =>
    match segments.getLast? with
    | some (.mk ident .none) => ident.toString == name
    | _ => false
  | _ => false

def RustType.isVecOf (name : String) : RustType → Bool
  | .path segments =>
    match segments.getLast? with
    | some (.mk ident (.angleBracketed [.type element])) => ident.toString == "Vec" && element.isNamed name
    | _ => false
  | _ => false

def checkMacro : HandlerMacro where
  family := .check
  contextName := "Context"
  returns := RustType.isNamed "bool"
  arguments := "`#[check]` does not accept arguments"
  notAsync := "command checks must be declared with `async fn`"
  isConst := "command checks cannot be `const`"
  isUnsafe := "command checks cannot be `unsafe`"
  hasAbi := "command checks cannot declare an explicit ABI"
  isGeneric := "generic command checks are not supported"
  isVariadic := "variadic command checks are not supported"
  inputs := "command checks require exactly one `Context<D>` parameter"
  missing := "command checks require a `Context<D>` parameter"
  receiver := "command checks must be free functions whose parameter is `Context<D>`"
  context := "command check context parameter must have type `Context<D>`"
  state := "`Context` requires exactly one application-state type parameter"
  output := "command checks must return `Result<bool>`"

def autocompleteMacro : HandlerMacro where
  family := .autocomplete
  contextName := "AutocompleteContext"
  returns := RustType.isVecOf "AutocompleteChoice"
  arguments := "`#[autocomplete]` does not accept arguments"
  notAsync := "autocomplete handlers must be declared with `async fn`"
  isConst := "autocomplete handlers cannot be `const`"
  isUnsafe := "autocomplete handlers cannot be `unsafe`"
  hasAbi := "autocomplete handlers cannot declare an explicit ABI"
  isGeneric := "generic autocomplete handlers are not supported"
  isVariadic := "variadic autocomplete handlers are not supported"
  inputs := "autocomplete handlers require exactly one `AutocompleteContext<D>` parameter"
  missing := "autocomplete handlers require an `AutocompleteContext<D>` parameter"
  receiver := "autocomplete handlers must be free functions whose parameter is `AutocompleteContext<D>`"
  context := "autocomplete context parameter must have type `AutocompleteContext<D>`"
  state := "`AutocompleteContext` requires exactly one application-state type parameter"
  output := "autocomplete handlers must return `Result<Vec<AutocompleteChoice>>`"

namespace HandlerMacro

variable (handler : HandlerMacro)

def contextType (function : ItemFn) : Expansion RustType :=
  match function.inputs.head? with
  | none => .error (.message handler.missing)
  | some .receiver => .error (.message handler.receiver)
  | some (.typed _ _ (.path segments)) =>
    match segments.getLast? with
    | none => .error (.message handler.context)
    | some segment =>
      if segment.ident.toString != handler.contextName then .error (.message handler.context)
      else
        match segment.arguments with
        | .angleBracketed [.type _] => .ok (.path segments)
        | _ => .error (.message handler.state)
  | some (.typed _ _ _) => .error (.message handler.context)

def validateReturnType : Option RustType → Expansion Unit
  | some (.path segments) =>
    match segments.getLast? with
    | some (.mk ident (.angleBracketed [.type value])) =>
      if ident.toString == "Result" && handler.returns value then .ok () else .error (.message handler.output)
    | _ => .error (.message handler.output)
  | _ => .error (.message handler.output)

def validateSignature (function : ItemFn) : Expansion Unit :=
  if !function.isAsync then .error (.message handler.notAsync)
  else if function.isConst then .error (.message handler.isConst)
  else if function.isUnsafe then .error (.message handler.isUnsafe)
  else if function.hasAbi then .error (.message handler.hasAbi)
  else if function.isGeneric then .error (.message handler.isGeneric)
  else if function.isVariadic then .error (.message handler.isVariadic)
  else if function.inputs.length ≠ 1 then .error (.message handler.inputs)
  else
    match handler.contextType function with
    | .error error => .error error
    | .ok _ => handler.validateReturnType function.output

end HandlerMacro

/-- The adapter: a function of this name and context that boxes the user's. -/
structure HandlerExpansion where
  name : Ident
  function : ItemFn
  contextType : RustType

def expandHandler (handler : HandlerMacro) (arguments : Arguments) (function : ItemFn) : Expansion HandlerExpansion :=
  match arguments with
  | some [] =>
    match handler.validateSignature function with
    | .error error => .error error
    | .ok () =>
      (handler.contextType function).map fun context => ⟨handler.family.ident function.ident, function, context⟩
  | _ => .error (.message handler.arguments)

def expandCheck : Arguments → ItemFn → Expansion HandlerExpansion := expandHandler checkMacro

def expandAutocomplete : Arguments → ItemFn → Expansion HandlerExpansion := expandHandler autocompleteMacro

/-! ## What is accepted -/

/-- An async function of one context. -/
structure IsHandler (handler : HandlerMacro) (function : ItemFn) (context : RustType) : Prop where
  plain : function.isAsync = true ∧ function.isConst = false ∧ function.isUnsafe = false ∧ function.hasAbi = false ∧
    function.isGeneric = false ∧ function.isVariadic = false
  input : ∃ attrs pat, function.inputs = [.typed attrs pat context]
  context : ∃ segments ident state, context = .path segments ∧
    segments.getLast? = some (.mk ident (.angleBracketed [.type state])) ∧ ident.toString = handler.contextName
  output : ∃ segments ident value, function.output = some (.path segments) ∧
    segments.getLast? = some (.mk ident (.angleBracketed [.type value])) ∧ ident.toString = "Result" ∧
    handler.returns value = true

theorem contextType_iff {handler : HandlerMacro} {function : ItemFn} {context : RustType} :
    handler.contextType function = .ok context ↔
      (∃ attrs pat, function.inputs.head? = some (.typed attrs pat context)) ∧
      ∃ segments ident state, context = .path segments ∧
        segments.getLast? = some (.mk ident (.angleBracketed [.type state])) ∧ ident.toString = handler.contextName := by
  constructor
  · intro h
    unfold HandlerMacro.contextType at h
    split at h
    · cases h
    · cases h
    · rename_i attrs pat segments hinput
      split at h
      · cases h
      · rename_i segment hlast
        split at h
        · cases h
        · rename_i hname
          split at h
          · rename_i state hstate
            cases h
            obtain ⟨ident, arguments⟩ := segment
            change arguments = _ at hstate
            subst hstate
            exact ⟨⟨attrs, pat, hinput⟩, segments, ident, state, rfl, hlast, by simpa [PathSegment.ident] using hname⟩
          · cases h
    · cases h
  · intro h
    obtain ⟨⟨attrs, pat, hinput⟩, segments, ident, state, rfl, hlast, hname⟩ := h
    simp [HandlerMacro.contextType, hinput, hlast, PathSegment.ident, PathSegment.arguments, hname]

theorem validateReturnType_iff {handler : HandlerMacro} {output : Option RustType} :
    handler.validateReturnType output = .ok () ↔
      ∃ segments ident value, output = some (.path segments) ∧
        segments.getLast? = some (.mk ident (.angleBracketed [.type value])) ∧ ident.toString = "Result" ∧
        handler.returns value = true := by
  constructor
  · intro h
    unfold HandlerMacro.validateReturnType at h
    split at h
    · rename_i segments
      split at h
      · rename_i ident value hlast
        split at h
        · rename_i hresult
          obtain ⟨hname, hvalue⟩ := Bool.and_eq_true_iff.mp hresult
          exact ⟨segments, ident, value, rfl, hlast, beq_iff_eq.mp hname, hvalue⟩
        · cases h
      · cases h
    · cases h
  · intro h
    obtain ⟨segments, ident, value, rfl, hlast, hname, hvalue⟩ := h
    simp [HandlerMacro.validateReturnType, hlast, hname, hvalue]

theorem IsHandler.contextType {handler : HandlerMacro} {function : ItemFn} {context : RustType}
    (h : IsHandler handler function context) : handler.contextType function = .ok context := by
  obtain ⟨attrs, pat, hone⟩ := h.input
  exact contextType_iff.mpr ⟨⟨attrs, pat, by rw [hone]; rfl⟩, h.context⟩

theorem validateSignature_iff {handler : HandlerMacro} {function : ItemFn} :
    handler.validateSignature function = .ok () ↔ ∃ context, IsHandler handler function context := by
  constructor
  · intro h
    unfold HandlerMacro.validateSignature at h
    repeat
      split at h
      · cases h
    rename_i hasync hconst hunsafe habi hgeneric hvariadic hinputs _ context hcontext
    obtain ⟨⟨attrs, pat, hinput⟩, hstate⟩ := contextType_iff.mp hcontext
    obtain ⟨first, hone⟩ := List.length_eq_one_iff.mp (Decidable.not_not.mp hinputs)
    rw [hone] at hinput
    cases hinput
    simp only [Bool.not_eq_true, Bool.not_eq_false'] at hasync hconst hunsafe habi hgeneric hvariadic
    exact ⟨context, ⟨hasync, hconst, hunsafe, habi, hgeneric, hvariadic⟩, ⟨attrs, pat, hone⟩, hstate,
      validateReturnType_iff.mp h⟩
  · intro h
    obtain ⟨context, hhandler⟩ := h
    obtain ⟨hasync, hconst, hunsafe, habi, hgeneric, hvariadic⟩ := hhandler.plain
    obtain ⟨attrs, pat, hone⟩ := hhandler.input
    simp [HandlerMacro.validateSignature, hasync, hconst, hunsafe, habi, hgeneric, hvariadic, hone,
      hhandler.contextType, validateReturnType_iff.mpr hhandler.output]

/-- Without arguments, on an async function of one context that returns what the macro's
    handlers return; then the adapter has the function's name in it and its context. -/
theorem expandHandler_iff {handler : HandlerMacro} {arguments : Arguments} {function : ItemFn}
    {expansion : HandlerExpansion} :
    expandHandler handler arguments function = .ok expansion ↔
      arguments = some [] ∧ IsHandler handler function expansion.contextType ∧
        expansion = ⟨handler.family.ident function.ident, function, expansion.contextType⟩ := by
  constructor
  · intro h
    unfold expandHandler at h
    split at h
    · split at h
      · cases h
      · rename_i hsignature
        obtain ⟨context, hcontext, rfl⟩ := map_ok.mp h
        obtain ⟨context', hhandler⟩ := validateSignature_iff.mp hsignature
        have hsame := hhandler.contextType
        rw [hcontext] at hsame
        cases hsame
        exact ⟨rfl, hhandler, rfl⟩
    · cases h
  · intro h
    obtain ⟨rfl, hhandler, hexpansion⟩ := h
    simp only [expandHandler, validateSignature_iff.mpr ⟨_, hhandler⟩, hhandler.contextType]
    rw [hexpansion]
    rfl

end GloamCommands.Macros
