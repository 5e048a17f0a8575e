/-
  GloamCommands.Macros.Syntax — what the macros see of Rust (`syn` as
  crates/gloam-commands-macros uses it), and the literals they read
  (`signed_literal`, `parse_integer_bound`, `parse_number_bound`, `parse_length`,
  `validate_name`, `validate_description` in src/command.rs).

  Syntax is what the parser returns, cut down to what a macro looks at: other
  expressions, types, patterns and items are one constructor `other`. The arguments of an
  attribute are its `key` and `key = value` entries, `none` for tokens that are no such
  list. A literal is its value; one that follows `=` in an attribute may itself be negative.
  - `parseIntegerBound_iff`, `parseNumberBound_iff`, `parseLength_iff`: the literals that
    are read, and their values.
-/

import GloamCommands.Lib.Float64

namespace GloamCommands.Macros

open Lib (F64)

/-! ## Syntax -/

structure Ident where
  raw : Bool
  name : String
  deriving DecidableEq, Repr

def Ident.toString (ident : Ident) : String := if ident.raw then "r#" ++ ident.name else ident.name

def Ident.unraw (ident : Ident) : String := ident.name

inductive Lit where
  | str (value : String)
  | int (negative : Bool) (digits : Nat)
  | float (negative : Bool) (coefficient : Nat) (exponent : Int)
  | other
  deriving DecidableEq, Repr

mutual

inductive RustType where
  | path (segments : List PathSegment)
  | tuple (elems : List RustType)
  | other

inductive PathSegment where
  | mk (ident : Ident) (arguments : PathArguments)

inductive PathArguments where
  | none
  | angleBracketed (args : List GenericArgument)
  | parenthesized

inductive GenericArgument where
  | type (ty : RustType)
  | other

end

def PathSegment.ident : PathSegment → Ident
  | mk ident _ => ident

def PathSegment.arguments : PathSegment → PathArguments
  | mk _ arguments => arguments

def PathArguments.isNone : PathArguments → Bool
  | none => true
  | _ => false

structure Path where
  leadingColon : Bool
  segments : List PathSegment

/-- `is_ident`: one plain segment, which prints as `name`. -/
def Path.isIdent (path : Path) (name : String) : Bool :=
  match path.leadingColon, path.segments with
  | false, [segment] => segment.arguments.isNone && segment.ident.toString == name
  | _, _ => false

inductive Expr where
  | lit (lit : Lit)
  | neg (expr : Expr)
  | path (qself : Bool) (path : Path)
  | other

abbrev Arguments := Option (List (Ident × Option Expr))

inductive Meta where
  | path
  | list (arguments : Arguments)
  | nameValue (value : Expr)

structure Attribute where
  path : Path
  style : Meta

inductive Pat where
  | ident (ident : Ident) (subpat : Bool)
  | other

inductive FnArg where
  | receiver
  | typed (attrs : List Attribute) (pat : Pat) (ty : RustType)

/-- `syn::Error`: the parser's own, or one of the macros' messages. -/
inductive SynError where
  | parse
  | message (text : String)
  deriving DecidableEq, Repr

abbrev Expansion := Except SynError

/-! ## Names and descriptions -/

/-- Unicode as the regex engine and `str::to_lowercase` know it. `nameChar` is the class
    `\\p{L}\\p{N}\\p{sc=Deva}\\p{sc=Thai}`. -/
structure Unicode where
  nameChar : Char → Bool
  toLowercase : String → String

def Unicode.isCommandName (unicode : Unicode) (name : String) : Bool :=
  decide (1 ≤ name.length) && decide (name.length ≤ 32) &&
    name.toList.all fun c => c == '-' || c == '_' || c == '\'' || unicode.nameChar c

def validateName (unicode : Unicode) (name : String) : Expansion Unit :=
  if !unicode.isCommandName name then
    .error (.message "invalid Discord chat-input command name; expected 1-32 characters matching Discord's application-command naming rules")
  else if unicode.toLowercase name != name then
    .error (.message "Discord chat-input command names must use lowercase variants when available")
  else .ok ()

def validateDescription (description : String) : Expansion Unit :=
  if description.length < 1 ∨ 100 < description.length then
    .error (.message "Discord slash-command descriptions must contain between 1 and 100 characters")
  else .ok ()

structure ValidName (unicode : Unicode) (name : String) : Prop where
  length : 1 ≤ name.length ∧ name.length ≤ 32
  chars : ∀ c ∈ name.toList, c = '-' ∨ c = '_' ∨ c = '\'' ∨ unicode.nameChar c = true
  lowercase : unicode.toLowercase name = name

theorem validateName_iff (unicode : Unicode) (name : String) :
    validateName unicode name = .ok () ↔ ValidName unicode name := by
  have hname : unicode.isCommandName name = true ↔ (1 ≤ name.length ∧ name.length ≤ 32) ∧
      ∀ c ∈ name.toList, c = '-' ∨ c = '_' ∨ c = '\'' ∨ unicode.nameChar c = true := by
    simp [Unicode.isCommandName, or_assoc]
  unfold validateName
  by_cases hc : unicode.isCommandName name = true
  · by_cases hl : unicode.toLowercase name = name
    · simp only [hc, Bool.not_true, Bool.false_eq_true, if_false, hl, bne_self_eq_false, true_iff]
      exact ⟨(hname.mp hc).1, (hname.mp hc).2, hl⟩
    · simp only [hc, Bool.not_true, Bool.false_eq_true, if_false, bne_iff_ne, ne_eq, hl, not_false_eq_true, if_true]
      exact ⟨fun h => (by cases h), fun h => absurd h.lowercase hl⟩
  · simp only [hc, Bool.not_false, if_true]
    exact ⟨fun h => (by cases h), fun h => absurd (hname.mpr ⟨h.length, h.chars⟩) hc⟩

theorem lengthCheck_iff (text : String) (error : SynError) :
    (if text.length < 1 ∨ 100 < text.length then .error error else .ok () : Expansion Unit) = .ok () ↔
      1 ≤ text.length ∧ text.length ≤ 100 := by
  by_cases h : text.length < 1 ∨ 100 < text.length
  · rw [if_pos h]
    exact ⟨fun he => (by cases he), fun hl => by omega⟩
  · rw [if_neg h]
    exact ⟨fun _ => by omega, fun _ => rfl⟩

theorem validateDescription_iff (description : String) :
    validateDescription description = .ok () ↔ 1 ≤ description.length ∧ description.length ≤ 100 :=
  lengthCheck_iff description _

/-! ## Literals -/

def minIntegerValue : Int := -9007199254740991
def maxIntegerValue : Int := 9007199254740991
def minNumberValue : F64 := F64.ofInt (-9007199254740992)
def maxNumberValue : F64 := F64.ofInt 9007199254740992

def signedLiteral : Expr → Expansion (Bool × Lit)
  | .lit lit => .ok (false, lit)
  | .neg (.lit lit) => .ok (true, lit)
  | _ => .error (.message "numeric option bounds require literals")

def signed (negative : Bool) (digits : Nat) : Int := if negative then -(digits : Int) else digits

def checkInteger (value : Int) : Expansion Int :=
  if value < minIntegerValue ∨ maxIntegerValue < value then
    .error (.message "Discord integer option bounds must be between -9007199254740991 and 9007199254740991")
  else .ok value

def parseIntegerBound (expression : Expr) : Expansion Int :=
  match signedLiteral expression with
  | .error error => .error error
  | .ok (negative, .int sign digits) =>
    let magnitude := signed sign digits
    -- the digits are parsed as an `i128`
    if magnitude < -2 ^ 127 ∨ 2 ^ 127 ≤ magnitude then
      .error (.message "integer option bound is outside the supported range")
    else checkInteger (if negative then -magnitude else magnitude)
  | .ok _ => .error (.message "integer option bounds require integer literals")

def checkNumber (value : F64) : Expansion F64 :=
  if !value.isFinite || !(minNumberValue.le value && value.le maxNumberValue) then
    .error (.message "Discord number option bounds must be between -9007199254740992 and 9007199254740992")
  else .ok value

def parseNumberBound (expression : Expr) : Expansion F64 :=
  match signedLiteral expression with
  | .error error => .error error
  | .ok (negative, lit) =>
    match lit with
    | .float sign coefficient exponent =>
      let magnitude := F64.ofDecimal coefficient exponent sign
      checkNumber (if negative then magnitude.neg else magnitude)
    | .int sign digits =>
      let magnitude := F64.ofDecimal digits 0 sign
      checkNumber (if negative then magnitude.neg else magnitude)
    | _ => .error (.message "number option bounds require numeric literals")

/-- No unsigned integer has a sign, not even on zero. -/
def parseLength : Expr → Expansion Nat
  | .lit (.int sign digits) =>
    if sign || decide (2 ^ 32 ≤ digits) then
      .error (.message "string length constraint is outside the supported range")
    else .ok digits
  | _ => .error (.message "string length constraints require non-negative integer literals")

inductive IntegerLiteral : Expr → Int → Prop where
  | plain (sign : Bool) (digits : Nat) : IntegerLiteral (.lit (.int sign digits)) (signed sign digits)
  | negated (sign : Bool) (digits : Nat) : IntegerLiteral (.neg (.lit (.int sign digits))) (-signed sign digits)

inductive NumericLit : Lit → F64 → Prop where
  | int (sign : Bool) (digits : Nat) : NumericLit (.int sign digits) (F64.ofDecimal digits 0 sign)
  | float (sign : Bool) (coefficient : Nat) (exponent : Int) :
      NumericLit (.float sign coefficient exponent) (F64.ofDecimal coefficient exponent sign)

inductive NumberLiteral : Expr → F64 → Prop where
  | plain {lit : Lit} {value : F64} : NumericLit lit value → NumberLiteral (.lit lit) value
  | negated {lit : Lit} {value : F64} : NumericLit lit value → NumberLiteral (.neg (.lit lit)) value.neg

def IntegerInRange (value : Int) : Prop := minIntegerValue ≤ value ∧ value ≤ maxIntegerValue

def NumberInRange (value : F64) : Prop :=
  value.isFinite = true ∧ minNumberValue.le value = true ∧ value.le maxNumberValue = true

theorem signedLiteral_ok {expression : Expr} {negative : Bool} {lit : Lit} :
    signedLiteral expression = .ok (negative, lit) ↔
      (negative = false ∧ expression = .lit lit) ∨ (negative = true ∧ expression = .neg (.lit lit)) := by
  unfold signedLiteral
  split
  · simp [eq_comm]
  · simp [eq_comm]
  · rename_i hplain hneg
    constructor
    · intro h
      cases h
    · rintro (⟨-, rfl⟩ | ⟨-, rfl⟩)
      · exact absurd rfl (hplain _)
      · exact absurd rfl (hneg _)

theorem integerLiteral_iff {expression : Expr} {value : Int} :
    IntegerLiteral expression value ↔ ∃ negative sign digits,
      signedLiteral expression = .ok (negative, .int sign digits) ∧
        value = if negative = true then -signed sign digits else signed sign digits := by
  constructor
  · rintro (⟨sign, digits⟩ | ⟨sign, digits⟩)
    · exact ⟨false, sign, digits, rfl, rfl⟩
    · exact ⟨true, sign, digits, rfl, rfl⟩
  · rintro ⟨negative, sign, digits, h, rfl⟩
    rcases signedLiteral_ok.mp h with ⟨rfl, rfl⟩ | ⟨rfl, rfl⟩
    · exact .plain sign digits
    · exact .negated sign digits

theorem numberLiteral_iff {expression : Expr} {value : F64} :
    NumberLiteral expression value ↔ ∃ negative lit magnitude, signedLiteral expression = .ok (negative, lit) ∧
      NumericLit lit magnitude ∧ value = if negative = true then magnitude.neg else magnitude := by
  constructor
  · rintro (h | h)
    · exact ⟨false, _, _, rfl, h, rfl⟩
    · exact ⟨true, _, _, rfl, h, rfl⟩
  · rintro ⟨negative, lit, magnitude, h, hlit, rfl⟩
    rcases signedLiteral_ok.mp h with ⟨rfl, rfl⟩ | ⟨rfl, rfl⟩
    · exact .plain hlit
    · exact .negated hlit

theorem checkInteger_iff (value result : Int) :
    checkInteger value = .ok result ↔ result = value ∧ IntegerInRange value := by
  unfold checkInteger IntegerInRange
  split
  · rename_i h
    exact ⟨fun he => (by cases he), fun hr => by omega⟩
  · rename_i h
    refine ⟨fun he => ?_, fun hr => by rw [hr.1]⟩
    cases he
    exact ⟨rfl, by omega, by omega⟩

theorem checkNumber_iff (value result : F64) :
    checkNumber value = .ok result ↔ result = value ∧ NumberInRange value := by
  unfold checkNumber NumberInRange
  by_cases h : value.isFinite = true ∧ minNumberValue.le value = true ∧ value.le maxNumberValue = true
  · rw [h.1, h.2.1, h.2.2]
    simp [eq_comm]
  · rw [if_pos (by simpa [imp_iff_not_or] using h)]
    exact ⟨fun he => (by cases he), fun hr => absurd hr.2 h⟩

theorem parseIntegerBound_iff (expression : Expr) (value : Int) :
    parseIntegerBound expression = .ok value ↔ IntegerLiteral expression value ∧ IntegerInRange value := by
  rw [integerLiteral_iff]
  unfold parseIntegerBound
  rcases signedLiteral expression with error | ⟨negative, lit⟩
  · simp
  cases lit with
  | int sign digits =>
    dsimp only
    by_cases hwide : signed sign digits < -2 ^ 127 ∨ 2 ^ 127 ≤ signed sign digits
    · -- too wide for an `i128`, and so for Discord
      rw [if_pos hwide]
      refine ⟨fun h => (by cases h), ?_⟩
      rintro ⟨⟨negative, sign, digits, heq, rfl⟩, hmin, hmax⟩
      cases heq
      unfold minIntegerValue at hmin
      unfold maxIntegerValue at hmax
      split at hmin
      · rename_i hneg
        rw [if_pos hneg] at hmax
        omega
      · rename_i hneg
        rw [if_neg hneg] at hmax
        omega
    · rw [if_neg hwide, checkInteger_iff]
      constructor
      · rintro ⟨rfl, hr⟩
        exact ⟨⟨negative, sign, digits, rfl, rfl⟩, hr⟩
      · rintro ⟨⟨negative, sign, digits, heq, rfl⟩, hr⟩
        cases heq
        exact ⟨rfl, hr⟩
  | _ => simp

theorem parseNumberBound_iff (expression : Expr) (value : F64) :
    parseNumberBound expression = .ok value ↔ NumberLiteral expression value ∧ NumberInRange value := by
  rw [numberLiteral_iff]
  unfold parseNumberBound
  rcases signedLiteral expression with error | ⟨negative, lit⟩
  · simp
  -- what is checked is the value of the literal under the sign
  have hchecked : ∀ magnitude, NumericLit lit magnitude →
      (checkNumber (if negative = true then magnitude.neg else magnitude) = .ok value ↔
        (∃ n l m, Except.ok (negative, lit) = (Except.ok (n, l) : Expansion (Bool × Lit)) ∧ NumericLit l m ∧
          value = if n = true then m.neg else m) ∧ NumberInRange value) := by
    intro magnitude hlit
    rw [checkNumber_iff]
    constructor
    · rintro ⟨rfl, hr⟩
      exact ⟨⟨negative, lit, magnitude, rfl, hlit, rfl⟩, hr⟩
    · rintro ⟨⟨n, l, m, heq, hm, rfl⟩, hr⟩
      cases heq
      have hone : m = magnitude := by cases hlit <;> cases hm <;> rfl
      rw [hone] at hr ⊢
      exact ⟨rfl, hr⟩
  have hother : (∀ magnitude, ¬ NumericLit lit magnitude) →
      ¬ ((∃ n l m, Except.ok (negative, lit) = (Except.ok (n, l) : Expansion (Bool × Lit)) ∧ NumericLit l m ∧
        value = if n = true then m.neg else m) ∧ NumberInRange value) := by
    rintro hnone ⟨⟨n, l, m, heq, hm, -⟩, -⟩
    cases heq
    exact hnone m hm
  cases lit with
  | int sign digits => exact hchecked _ (.int sign digits)
  | float sign coefficient exponent => exact hchecked _ (.float sign coefficient exponent)
  | str => exact ⟨fun h => (by cases h), fun h => absurd h (hother fun _ hm => by cases hm)⟩
  | other => exact ⟨fun h => (by cases h), fun h => absurd h (hother fun _ hm => by cases hm)⟩

theorem parseLength_iff (expression : Expr) (length : Nat) :
    parseLength expression = .ok length ↔ expression = .lit (.int false length) ∧ length < 2 ^ 32 := by
  unfold parseLength
  split
  · rename_i sign digits
    cases sign with
    | true => simp
    | false =>
      by_cases hwide : 2 ^ 32 ≤ digits
      · simp only [Bool.false_or, decide_eq_true_eq, if_pos hwide, reduceCtorEq, false_iff, not_and]
        intro heq
        cases heq
        omega
      · simp only [Bool.false_or, decide_eq_true_eq, if_neg hwide, Except.ok.injEq, Expr.lit.injEq, Lit.int.injEq, true_and]
        constructor
        · rintro rfl
          exact ⟨rfl, by omega⟩
        · exact fun h => h.1
  · rename_i hother
    simp only [reduceCtorEq, false_iff, not_and]
    intro heq
    exact absurd heq (hother false length)

end GloamCommands.Macros
