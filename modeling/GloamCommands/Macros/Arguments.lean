/-
  GloamCommands.Macros.Arguments — the arguments of `#[command]` and `#[group]`, said
  apart from how they are parsed (`CommandArgs::parse` in
  crates/gloam-commands-macros/src/command.rs, `GroupArgs::parse` in src/group.rs).

  Both loops read keyed entries into slots (`Lib.Slots`). `DeclaresCommand` and
  `DeclaresGroup` relate the entries to what they say, key by key: a name or a number at
  most once, checks and contexts as often as they differ, and nothing else.
  - `parseCommandArgs_iff`, `parseGroupArgs_iff`: those are the arguments that are accepted.
-/

import GloamCommands.Lib.Slots
import GloamCommands.Macros.Group
import GloamCommands.Macros.Schema

namespace GloamCommands.Macros

open Lib (OnceTaken EachTaken FlagTaken Slots given map_ok onceTaken_nil onceTaken_cons onceTaken_none eachTaken_nil
  eachTaken_cons eachTaken_empty flagTaken_nil flagTaken_cons)

/-! ## Values -/

def Spelled {α : Type} (Reads : Expr → α → Prop) (value : Option Expr) (a : α) : Prop :=
  ∃ expression, value = some expression ∧ Reads expression a

def Given {α : Type} (Reads : Expr → α → Prop) (values : List (Option Expr)) : Option α → Prop
  | none => values = []
  | some a => ∃ expression, values = [some expression] ∧ Reads expression a

def CommandContext.literal : CommandContext → String
  | guild => "guild"
  | botDm => "bot_dm"
  | privateChannel => "private_channel"

def ContextLiteral (expression : Expr) (context : CommandContext) : Prop := StringLiteral expression context.literal

def UnsignedLiteral (bits : Nat) (expression : Expr) (value : Nat) : Prop :=
  expression = .lit (.int false value) ∧ value < 2 ^ bits

def LimitLiteral (expression : Expr) (value : Nat) : Prop := UnsignedLiteral 64 expression value ∧ value ≠ 0

theorem given_iff {α : Type} {Reads : Expr → α → Prop} {values : List (Option Expr)} {final : Option α} :
    OnceTaken (Spelled Reads) values none final ↔ Given Reads values final := by
  rw [onceTaken_none]
  cases final with
  | none => simp [Given]
  | some a =>
    constructor
    · intro h
      rcases h with ⟨h, _⟩ | ⟨value, a', hvalues, ⟨expression, hvalue, hreads⟩, heq⟩
      · cases h
      · cases heq
        rw [hvalue] at hvalues
        exact ⟨expression, hvalues, hreads⟩
    · intro ⟨expression, hvalues, hreads⟩
      exact .inr ⟨some expression, a, hvalues, ⟨expression, rfl, hreads⟩, rfl⟩

theorem parseLitStr_iff (expression : Expr) (value : String) :
    parseLitStr expression = .ok value ↔ StringLiteral expression value := by
  unfold parseLitStr StringLiteral
  split <;> simp_all

theorem commandContext_parse_iff (value : String) (context : CommandContext) :
    CommandContext.parse value = .ok context ↔ value = context.literal := by
  constructor
  · intro h
    unfold CommandContext.parse at h
    split at h <;> cases h <;> rfl
  · intro h
    rw [h]
    cases context <;> rfl

theorem parseUnsigned_iff (bits : Nat) (error : String) (expression : Expr) (value : Nat) :
    parseUnsigned bits error expression = .ok value ↔ UnsignedLiteral bits expression value := by
  unfold parseUnsigned UnsignedLiteral
  split
  · rename_i sign digits
    by_cases hbad : (sign || decide (2 ^ bits ≤ digits)) = true
    · rw [if_pos hbad]
      refine ⟨fun h => (by cases h), fun ⟨heq, hlt⟩ => ?_⟩
      cases heq
      simp only [Bool.false_or, decide_eq_true_eq] at hbad
      omega
    · rw [if_neg hbad]
      simp only [Bool.or_eq_true, decide_eq_true_eq, not_or, Bool.not_eq_true, Nat.not_le] at hbad
      obtain ⟨rfl, hlt⟩ := hbad
      constructor
      · intro h
        cases h
        exact ⟨rfl, hlt⟩
      · intro ⟨heq, _⟩
        cases heq
        rfl
  · simp
  · rename_i hlit _
    exact ⟨fun h => (by cases h), fun ⟨heq, _⟩ => absurd heq (hlit false value)⟩

theorem parseLimit_iff (expression : Expr) (limit : Nat) :
    parseLimit expression = .ok limit ↔ LimitLiteral expression limit := by
  unfold parseLimit LimitLiteral
  rw [← parseUnsigned_iff 64 "`max_concurrency` must be a positive integer"]
  cases parseUnsigned 64 "`max_concurrency` must be a positive integer" expression with
  | error error => simp
  | ok value =>
    by_cases hzero : value = 0
    · simp only [hzero, if_true, reduceCtorEq, Except.ok.injEq, false_iff, not_and, ne_eq, not_not]
      exact fun h => h.symm
    · simp only [hzero, if_false, Except.ok.injEq]
      exact ⟨fun h => ⟨h, h ▸ hzero⟩, fun h => h.1⟩

theorem validateHandlerPath_iff (path : Path) (kind : String) :
    validateHandlerPath path kind = .ok () ↔
      path.segments ≠ [] ∧ ∀ segment ∈ path.segments, segment.arguments.isNone = true := by
  unfold validateHandlerPath
  by_cases hbad : (path.segments.isEmpty || path.segments.any fun segment => !segment.arguments.isNone) = true
  · rw [if_pos hbad]
    refine ⟨fun h => (by cases h), fun ⟨hne, hplain⟩ => ?_⟩
    simp only [Bool.or_eq_true, List.isEmpty_iff, List.any_eq_true, Bool.not_eq_true'] at hbad
    rcases hbad with hbad | ⟨segment, hm, hbad⟩
    · exact absurd hbad hne
    · rw [hplain segment hm] at hbad
      cases hbad
  · rw [if_neg hbad]
    refine ⟨fun _ => ?_, fun _ => rfl⟩
    simpa only [Bool.or_eq_true, List.isEmpty_iff, List.any_eq_true, Bool.not_eq_true', not_or, not_exists, not_and,
      Bool.not_eq_false] using hbad

theorem takeOnce_iff {α : Type} {parse : Expr → Expansion α} {Reads : Expr → α → Prop}
    (hparse : ∀ expression a, parse expression = .ok a ↔ Reads expression a) {name : String} {slot next : Option α}
    {expression : Expr} :
    takeOnce parse name slot expression = .ok next ↔ slot = none ∧ ∃ a, Reads expression a ∧ next = some a := by
  unfold takeOnce
  simp only [← hparse]
  cases parse expression with
  | error error => simp
  | ok a => cases slot <;> simp [eq_comm]

theorem takeCheck_iff {checks next : List Path} {expression : Expr} :
    takeCheck checks expression = .ok next ↔
      ∃ path, HandlerPath expression path ∧ pathDisplay path ∉ checks.map pathDisplay ∧ next = checks ++ [path] := by
  unfold takeCheck HandlerPath
  split
  · rename_i path
    have hpath := validateHandlerPath_iff path "check"
    cases hv : validateHandlerPath path "check" with
    | error error =>
      refine ⟨fun h => (by cases h), fun ⟨_, ⟨heq, hplain⟩, _⟩ => ?_⟩
      cases heq
      rw [hpath.mpr hplain] at hv
      cases hv
    | ok _ =>
      by_cases hmem : pathDisplay path ∈ checks.map pathDisplay
      · rw [if_pos hmem]
        refine ⟨fun h => (by cases h), fun ⟨_, ⟨heq, _⟩, hnew, _⟩ => ?_⟩
        cases heq
        exact absurd hmem hnew
      · rw [if_neg hmem]
        constructor
        · intro h
          cases h
          exact ⟨path, ⟨rfl, hpath.mp hv⟩, hmem, rfl⟩
        · intro ⟨_, ⟨heq, _⟩, _, hnext⟩
          cases heq
          rw [hnext]
  · rename_i hother
    exact ⟨fun h => (by cases h), fun ⟨path, ⟨heq, _⟩, _⟩ => absurd heq (hother path)⟩

theorem takeContext_iff {contexts next : List CommandContext} {expression : Expr} :
    takeContext contexts expression = .ok next ↔
      ∃ context, ContextLiteral expression context ∧ context ∉ contexts ∧ next = contexts ++ [context] := by
  unfold takeContext ContextLiteral
  simp only [← parseLitStr_iff]
  cases parseLitStr expression with
  | error error => simp
  | ok value =>
    simp only [Except.ok.injEq]
    simp only [← commandContext_parse_iff]
    cases CommandContext.parse value with
    | error error => simp
    | ok context => by_cases hmem : context ∈ contexts <;> simp [hmem, eq_comm]

/-! ## The arguments of `#[command]` -/

def commandValues (argument : CommandArgument) (entries : List (Ident × Option Expr)) : List (Option Expr) :=
  given (fun entry : Ident × Option Expr => commandArgument entry.1) (·.2) argument entries

structure DeclaresCommand (entries : List (Ident × Option Expr)) (args : CommandArgs) : Prop where
  known : ∀ entry ∈ entries, (commandArgument entry.1).isSome = true
  name : Given StringLiteral (commandValues .name entries) args.name
  description : Given StringLiteral (commandValues .description entries) args.description
  checks : List.Forall₂ (Spelled HandlerPath) (commandValues .check entries) args.checks
  distinctChecks : (args.checks.map pathDisplay).Nodup
  contexts : List.Forall₂ (Spelled ContextLiteral) (commandValues .context entries) args.contexts
  distinctContexts : args.contexts.Nodup
  guildOnly : (∀ value ∈ commandValues .guildOnly entries, value = none) ∧
    (commandValues .guildOnly entries).length = args.guildOnly.toNat
  memberPermissions : Given Eq (commandValues .memberPermissions entries) args.memberPermissions
  botPermissions : Given Eq (commandValues .botPermissions entries) args.botPermissions
  cooldown : Given (UnsignedLiteral 64) (commandValues .cooldown entries) args.cooldownSeconds
  maxConcurrency : Given LimitLiteral (commandValues .maxConcurrency entries) args.maxConcurrency
  exclusive : args.guildOnly = true → args.contexts = []

def CommandArgs.takeArgument (args : CommandArgs) (value : Option Expr) (argument : CommandArgument) : Expansion CommandArgs :=
  match value with
  | none =>
    if argument = .guildOnly then
      if args.guildOnly then .error (.message "duplicate `guild_only` argument") else .ok { args with guildOnly := true }
    else .error .parse
  | some value => args.takeValue value argument

theorem take_iff (args next : CommandArgs) (entry : Ident × Option Expr) :
    args.take entry = .ok next ↔
      ∃ argument, commandArgument entry.1 = some argument ∧ args.takeArgument entry.2 argument = .ok next := by
  obtain ⟨key, value⟩ := entry
  cases hkey : commandArgument key with
  | none => cases value <;> simp [CommandArgs.take, hkey]
  | some argument => cases value <;> simp [CommandArgs.take, CommandArgs.takeArgument, hkey]

/-- What the values that are left under one key make of what has been read. -/
def ArgumentTaken (argument : CommandArgument) (values : List (Option Expr)) (args final : CommandArgs) : Prop :=
  match argument with
  | .guildOnly => FlagTaken (· = none) values args.guildOnly final.guildOnly
  | .name => OnceTaken (Spelled StringLiteral) values args.name final.name
  | .description => OnceTaken (Spelled StringLiteral) values args.description final.description
  | .check => EachTaken (Spelled HandlerPath) pathDisplay values args.checks final.checks
  | .context => EachTaken (Spelled ContextLiteral) id values args.contexts final.contexts
  | .memberPermissions => OnceTaken (Spelled Eq) values args.memberPermissions final.memberPermissions
  | .botPermissions => OnceTaken (Spelled Eq) values args.botPermissions final.botPermissions
  | .cooldown => OnceTaken (Spelled (UnsignedLiteral 64)) values args.cooldownSeconds final.cooldownSeconds
  | .maxConcurrency => OnceTaken (Spelled LimitLiteral) values args.maxConcurrency final.maxConcurrency

theorem takeOnce_taken {α σ : Type} {Reads : Expr → α → Prop} {parse : Expr → Expansion α} {name : String}
    (take : Option Expr → Expansion σ) (set : Option α → σ) (get : σ → Option α) {slot final : Option α}
    {value : Option Expr} {values : List (Option Expr)}
    (hparse : ∀ expression a, parse expression = .ok a ↔ Reads expression a) (hget : ∀ slot, get (set slot) = slot)
    (hnone : take none = .error .parse) (hsome : ∀ e, take (some e) = (takeOnce parse name slot e).map set) :
    OnceTaken (Spelled Reads) (value :: values) slot final ↔
      ∃ next, take value = .ok next ∧ OnceTaken (Spelled Reads) values (get next) final := by
  rw [onceTaken_cons]
  constructor
  · intro ⟨hslot, a, ⟨expression, hvalue, hreads⟩, hrest⟩
    refine ⟨set (some a), ?_, by rw [hget]; exact hrest⟩
    rw [hvalue, hsome]
    exact map_ok.mpr ⟨some a, (takeOnce_iff hparse).mpr ⟨hslot, a, hreads, rfl⟩, rfl⟩
  · intro ⟨next, htake, hrest⟩
    cases value with
    | none =>
      rw [hnone] at htake
      cases htake
    | some expression =>
      rw [hsome] at htake
      obtain ⟨slot', hslot', rfl⟩ := map_ok.mp htake
      obtain ⟨hslot, a, hreads, rfl⟩ := (takeOnce_iff hparse).mp hslot'
      rw [hget] at hrest
      exact ⟨hslot, a, ⟨expression, rfl, hreads⟩, hrest⟩

theorem takeEach_taken {α β σ : Type} {Reads : Expr → α → Prop} {key : α → β} {add : Expr → Expansion (List α)}
    (take : Option Expr → Expansion σ) (set : List α → σ) (get : σ → List α) {list final : List α}
    {value : Option Expr} {values : List (Option Expr)}
    (hadd : ∀ expression next, add expression = .ok next ↔
      ∃ a, Reads expression a ∧ key a ∉ list.map key ∧ next = list ++ [a]) (hget : ∀ list, get (set list) = list)
    (hnone : take none = .error .parse) (hsome : ∀ e, take (some e) = (add e).map set) :
    EachTaken (Spelled Reads) key (value :: values) list final ↔
      ∃ next, take value = .ok next ∧ EachTaken (Spelled Reads) key values (get next) final := by
  rw [eachTaken_cons]
  constructor
  · intro ⟨a, ⟨expression, hvalue, hreads⟩, hnew, hrest⟩
    refine ⟨set (list ++ [a]), ?_, by rw [hget]; exact hrest⟩
    rw [hvalue, hsome]
    exact map_ok.mpr ⟨_, (hadd _ _).mpr ⟨a, hreads, hnew, rfl⟩, rfl⟩
  · intro ⟨next, htake, hrest⟩
    cases value with
    | none =>
      rw [hnone] at htake
      cases htake
    | some expression =>
      rw [hsome] at htake
      obtain ⟨list', hlist', rfl⟩ := map_ok.mp htake
      obtain ⟨a, hreads, hnew, rfl⟩ := (hadd _ _).mp hlist'
      rw [hget] at hrest
      exact ⟨a, ⟨expression, rfl, hreads⟩, hnew, hrest⟩

theorem argumentTaken_cons (argument : CommandArgument) (value : Option Expr) (values : List (Option Expr))
    (args final : CommandArgs) :
    ArgumentTaken argument (value :: values) args final ↔
      ∃ next, args.takeArgument value argument = .ok next ∧ ArgumentTaken argument values next final := by
  have heq : ∀ (expression a : Expr), (Except.ok expression : Expansion Expr) = .ok a ↔ expression = a := by simp
  cases argument with
  | guildOnly =>
    refine flagTaken_cons.trans ⟨?_, ?_⟩
    · intro ⟨hflag, hvalue, hrest⟩
      exact ⟨{ args with guildOnly := true }, by rw [hvalue]; simp [CommandArgs.takeArgument, hflag], hrest⟩
    · intro ⟨next, htake, hrest⟩
      cases value with
      | some expression => cases htake
      | none =>
        cases hflag : args.guildOnly with
        | true => simp [CommandArgs.takeArgument, hflag] at htake
        | false =>
          simp only [CommandArgs.takeArgument, hflag, if_true, Bool.false_eq_true, if_false, Except.ok.injEq] at htake
          rw [← htake] at hrest
          exact ⟨rfl, rfl, hrest⟩
  | check =>
    exact takeEach_taken (args.takeArgument · .check) (fun checks => { args with checks := checks }) (·.checks)
      (fun _ _ => takeCheck_iff) (fun _ => rfl) rfl fun _ => rfl
  | context =>
    refine takeEach_taken (args.takeArgument · .context) (fun contexts => { args with contexts := contexts }) (·.contexts)
      (fun expression next => ?_) (fun _ => rfl) rfl fun _ => rfl
    rw [takeContext_iff, List.map_id]
    rfl
  | name =>
    exact takeOnce_taken (args.takeArgument · .name) (fun name => { args with name := name }) (·.name)
      parseLitStr_iff (fun _ => rfl) rfl fun _ => rfl
  | description =>
    exact takeOnce_taken (args.takeArgument · .description) (fun d => { args with description := d }) (·.description)
      parseLitStr_iff (fun _ => rfl) rfl fun _ => rfl
  | memberPermissions =>
    exact takeOnce_taken (args.takeArgument · .memberPermissions) (fun p => { args with memberPermissions := p })
      (·.memberPermissions) heq (fun _ => rfl) rfl fun _ => rfl
  | botPermissions =>
    exact takeOnce_taken (args.takeArgument · .botPermissions) (fun p => { args with botPermissions := p })
      (·.botPermissions) heq (fun _ => rfl) rfl fun _ => rfl
  | cooldown =>
    exact takeOnce_taken (args.takeArgument · .cooldown) (fun seconds => { args with cooldownSeconds := seconds })
      (·.cooldownSeconds) (parseUnsigned_iff 64 _) (fun _ => rfl) rfl fun _ => rfl
  | maxConcurrency =>
    exact takeOnce_taken (args.takeArgument · .maxConcurrency) (fun limit => { args with maxConcurrency := limit })
      (·.maxConcurrency) parseLimit_iff (fun _ => rfl) rfl fun _ => rfl

theorem argumentTaken_frame (argument other : CommandArgument) (value : Option Expr) (values : List (Option Expr))
    (args next final : CommandArgs) (h : args.takeArgument value argument = .ok next) (hne : other ≠ argument) :
    ArgumentTaken other values args final ↔ ArgumentTaken other values next final := by
  cases argument with
  | guildOnly =>
    cases value with
    | some expression => cases h
    | none =>
      by_cases hflag : args.guildOnly = true
      · simp [CommandArgs.takeArgument, hflag] at h
      · simp only [CommandArgs.takeArgument, hflag, if_true, if_false, Except.ok.injEq, Bool.false_eq_true] at h
        rw [← h]
        cases other <;> first | exact Iff.rfl | exact absurd rfl hne
  | _ =>
    cases value with
    | none => cases h
    | some expression =>
      obtain ⟨slot, -, rfl⟩ := map_ok.mp h
      cases other <;> first | exact Iff.rfl | exact absurd rfl hne

theorem argumentTaken_nil (args final : CommandArgs) : (∀ argument, ArgumentTaken argument [] args final) ↔ args = final := by
  constructor
  · intro h
    have hname := onceTaken_nil.mp (h .name)
    have hdescription := onceTaken_nil.mp (h .description)
    have hchecks := eachTaken_nil.mp (h .check)
    have hcontexts := eachTaken_nil.mp (h .context)
    have hguild := flagTaken_nil.mp (h .guildOnly)
    have hmember := onceTaken_nil.mp (h .memberPermissions)
    have hbot := onceTaken_nil.mp (h .botPermissions)
    have hcooldown := onceTaken_nil.mp (h .cooldown)
    have hlimit := onceTaken_nil.mp (h .maxConcurrency)
    cases args
    cases final
    simp_all
  · intro h argument
    rw [h]
    cases argument with
    | guildOnly => exact flagTaken_nil.mpr rfl
    | check => exact eachTaken_nil.mpr rfl
    | context => exact eachTaken_nil.mpr rfl
    | _ => exact onceTaken_nil.mpr rfl

theorem commandArgs_slots : Slots CommandArgs.takeArgument ArgumentTaken where
  nil := argumentTaken_nil
  cons := argumentTaken_cons
  frame := argumentTaken_frame

theorem commandArgs_parse_iff {entries : List (Ident × Option Expr)} {args final : CommandArgs} :
    CommandArgs.parse args entries = .ok final ↔
      (∀ entry ∈ entries, (commandArgument entry.1).isSome = true) ∧
        ∀ argument, ArgumentTaken argument (commandValues argument entries) args final := by
  refine commandArgs_slots.loop_iff (fun _ => rfl) (fun args entry rest final => ?_)
  rw [CommandArgs.parse]
  constructor
  · intro h
    cases htake : args.take entry with
    | error error =>
      rw [htake] at h
      cases h
    | ok next =>
      rw [htake] at h
      obtain ⟨argument, hkey, htake⟩ := (take_iff args next entry).mp htake
      exact ⟨argument, next, hkey, htake, h⟩
  · intro ⟨argument, next, hkey, htake, h⟩
    rw [(take_iff args next entry).mpr ⟨argument, hkey, htake⟩]
    exact h

/-- The arguments `#[command(..)]` accepts. -/
theorem parseCommandArgs_iff {arguments : Arguments} {args : CommandArgs} :
    parseCommandArgs arguments = .ok args ↔ ∃ entries, arguments = some entries ∧ DeclaresCommand entries args := by
  cases arguments with
  | none => simp [parseCommandArgs]
  | some entries =>
    have hparse := @commandArgs_parse_iff entries {} args
    have hdeclares : DeclaresCommand entries args ↔
        CommandArgs.parse {} entries = .ok args ∧ (args.guildOnly = true → args.contexts = []) := by
      rw [hparse]
      constructor
      · intro h
        refine ⟨⟨h.known, fun argument => ?_⟩, h.exclusive⟩
        cases argument with
        | guildOnly => exact ⟨h.guildOnly.1, by rw [h.guildOnly.2]; exact Nat.zero_add _⟩
        | name => exact given_iff.mpr h.name
        | description => exact given_iff.mpr h.description
        | check => exact eachTaken_empty.mpr ⟨h.checks, h.distinctChecks⟩
        | context => exact eachTaken_empty.mpr ⟨h.contexts, by rw [List.map_id]; exact h.distinctContexts⟩
        | memberPermissions => exact given_iff.mpr h.memberPermissions
        | botPermissions => exact given_iff.mpr h.botPermissions
        | cooldown => exact given_iff.mpr h.cooldown
        | maxConcurrency => exact given_iff.mpr h.maxConcurrency
      · intro ⟨⟨hknown, htaken⟩, hexclusive⟩
        obtain ⟨hchecks, hdistinct⟩ := eachTaken_empty.mp (htaken .check)
        obtain ⟨hcontexts, hdifferent⟩ := eachTaken_empty.mp (htaken .context)
        obtain ⟨hguild, hcount⟩ := htaken .guildOnly
        exact {
          known := hknown
          name := given_iff.mp (htaken .name)
          description := given_iff.mp (htaken .description)
          checks := hchecks
          distinctChecks := hdistinct
          contexts := hcontexts
          distinctContexts := by rw [List.map_id] at hdifferent; exact hdifferent
          guildOnly := ⟨hguild, by rw [← hcount]; exact (Nat.zero_add _).symm⟩
          memberPermissions := given_iff.mp (htaken .memberPermissions)
          botPermissions := given_iff.mp (htaken .botPermissions)
          cooldown := given_iff.mp (htaken .cooldown)
          maxConcurrency := given_iff.mp (htaken .maxConcurrency)
          exclusive := hexclusive }
    simp only [Option.some.injEq, exists_eq_left', hdeclares, parseCommandArgs]
    cases CommandArgs.parse {} entries with
    | error error => simp
    | ok parsed =>
      by_cases hboth : (parsed.guildOnly && !parsed.contexts.isEmpty) = true
      · simp only [hboth, if_true, reduceCtorEq, Except.ok.injEq, false_iff, not_and]
        intro heq hexclusive
        rw [heq] at hboth
        simp only [Bool.and_eq_true, Bool.not_eq_true', List.isEmpty_eq_false_iff] at hboth
        exact hboth.2 (hexclusive hboth.1)
      · simp only [hboth, if_false, Except.ok.injEq, Bool.false_eq_true]
        refine ⟨fun heq => ⟨heq, fun hguild => ?_⟩, fun h => h.1⟩
        rw [← heq] at hguild ⊢
        simpa [hguild] using hboth

/-! ## The arguments of `#[group]` -/

inductive GroupArgument where
  | name
  | description
  deriving DecidableEq, Repr

def groupArgument (key : Ident) : Option GroupArgument :=
  if key.toString == "name" then some .name else if key.toString == "description" then some .description else none

def groupValues (argument : GroupArgument) (entries : List (Ident × Option Expr)) : List (Option Expr) :=
  given (fun entry : Ident × Option Expr => groupArgument entry.1) (·.2) argument entries

structure DeclaresGroup (entries : List (Ident × Option Expr)) (args : GroupArgs) : Prop where
  known : ∀ entry ∈ entries, (groupArgument entry.1).isSome = true
  name : Given StringLiteral (groupValues .name entries) args.name
  description : Given StringLiteral (groupValues .description entries) args.description

def GroupArgs.takeArgument (args : GroupArgs) (value : Option Expr) (argument : GroupArgument) : Expansion GroupArgs :=
  match value, argument with
  | none, _ => .error .parse
  | some value, .name => (takeOnce parseLitStr "name" args.name value).map fun name => { args with name := name }
  | some value, .description =>
    (takeOnce parseLitStr "description" args.description value).map fun d => { args with description := d }

def GroupTaken (argument : GroupArgument) (values : List (Option Expr)) (args final : GroupArgs) : Prop :=
  match argument with
  | .name => OnceTaken (Spelled StringLiteral) values args.name final.name
  | .description => OnceTaken (Spelled StringLiteral) values args.description final.description

theorem groupArgs_slots : Slots GroupArgs.takeArgument GroupTaken where
  nil := by
    intro args final
    constructor
    · intro h
      have hname := onceTaken_nil.mp (h .name)
      have hdescription := onceTaken_nil.mp (h .description)
      cases args
      cases final
      simp_all
    · intro h argument
      rw [h]
      cases argument <;> exact onceTaken_nil.mpr rfl
  cons := by
    intro argument value values args final
    cases argument with
    | name =>
      exact takeOnce_taken (args.takeArgument · .name) (fun name => { args with name := name }) (·.name)
        parseLitStr_iff (fun _ => rfl) rfl fun _ => rfl
    | description =>
      exact takeOnce_taken (args.takeArgument · .description) (fun d => { args with description := d }) (·.description)
        parseLitStr_iff (fun _ => rfl) rfl fun _ => rfl
  frame := by
    intro argument other value values args next final h hne
    cases value with
    | none => cases h
    | some expression =>
      cases argument <;> obtain ⟨slot, -, rfl⟩ := map_ok.mp h <;> cases other <;>
        first | exact Iff.rfl | exact absurd rfl hne

/-- A slot that is free takes the string, and the loop goes on with it. -/
theorem takeString_iff {expression : Expr} {value name : String} {slot : Option String} {set : Option String → GroupArgs}
    (hread : parseLitStr expression = .ok value) {refused : SynError} {go : GroupArgs → Expansion GroupArgs}
    {final : GroupArgs} :
    (if slot.isSome then .error refused else go (set (some value))) = .ok final ↔
      ∃ next, (takeOnce parseLitStr name slot expression).map set = .ok next ∧ go next = .ok final := by
  have hreads := (parseLitStr_iff expression value).mp hread
  have htake : ∀ next, (takeOnce parseLitStr name slot expression).map set = .ok next ↔
      slot = none ∧ next = set (some value) := by
    intro next
    rw [map_ok]
    constructor
    · intro ⟨slot', hslot', hnext⟩
      obtain ⟨hslot, value', hreads', rfl⟩ := (takeOnce_iff parseLitStr_iff).mp hslot'
      rw [hreads] at hreads'
      cases hreads'
      exact ⟨hslot, hnext.symm⟩
    · intro ⟨hslot, hnext⟩
      exact ⟨some value, (takeOnce_iff parseLitStr_iff).mpr ⟨hslot, value, hreads, rfl⟩, hnext.symm⟩
  cases slot with
  | some old =>
    refine ⟨fun h => (by cases h), fun ⟨next, hnext, _⟩ => ?_⟩
    cases ((htake next).mp hnext).1
  | none =>
    constructor
    · intro h
      exact ⟨_, (htake _).mpr ⟨rfl, rfl⟩, h⟩
    · intro ⟨next, hnext, h⟩
      rw [((htake next).mp hnext).2] at h
      exact h

/-- A string is read before its key is looked at, and an unknown key is refused all the same. -/
theorem groupArgs_parse_cons (args : GroupArgs) (entry : Ident × Option Expr) (rest : List (Ident × Option Expr))
    (final : GroupArgs) :
    GroupArgs.parse args (entry :: rest) = .ok final ↔
      ∃ argument next, groupArgument entry.1 = some argument ∧ args.takeArgument entry.2 argument = .ok next ∧
        GroupArgs.parse next rest = .ok final := by
  obtain ⟨key, value⟩ := entry
  cases value with
  | none => exact ⟨fun h => (by cases h), fun ⟨_, _, _, h, _⟩ => (by cases h)⟩
  | some expression =>
    rw [GroupArgs.parse]
    cases hread : parseLitStr expression with
    | error error =>
      refine ⟨fun h => (by cases h), fun ⟨argument, next, _, htake, _⟩ => ?_⟩
      have hnone : ∀ (name : String) (slot : Option String),
          takeOnce parseLitStr name slot expression = .error error := by
        intro name slot
        rw [takeOnce, hread]
      cases argument with
      | name =>
        rw [GroupArgs.takeArgument, hnone] at htake
        cases htake
      | description =>
        rw [GroupArgs.takeArgument, hnone] at htake
        cases htake
    | ok value =>
      -- the key decides which slot, if any
      have hkeyed : ∀ argument : GroupArgument, groupArgument key = some argument →
          ((∃ a next, groupArgument key = some a ∧ args.takeArgument (some expression) a = .ok next ∧
            GroupArgs.parse next rest = .ok final) ↔
          ∃ next, args.takeArgument (some expression) argument = .ok next ∧ GroupArgs.parse next rest = .ok final) := by
        intro argument hkey
        simp only [hkey, Option.some.injEq, exists_eq_left', exists_and_left]
      dsimp only
      by_cases hname : key.toString = "name"
      · rw [if_pos (beq_iff_eq.mpr hname), hkeyed .name (if_pos (beq_iff_eq.mpr hname))]
        exact @takeString_iff _ _ _ _ (fun name => { args with name := name }) hread _ (GroupArgs.parse · rest) _
      rw [if_neg (by simpa using hname)]
      by_cases hdescription : key.toString = "description"
      · have hkey : groupArgument key = some .description := by
          unfold groupArgument
          rw [if_neg (by simpa using hname), if_pos (beq_iff_eq.mpr hdescription)]
        rw [if_pos (beq_iff_eq.mpr hdescription), hkeyed .description hkey]
        exact @takeString_iff _ _ _ _ (fun d => { args with description := d }) hread _ (GroupArgs.parse · rest) _
      · have hkey : groupArgument key = none := by
          unfold groupArgument
          rw [if_neg (by simpa using hname), if_neg (by simpa using hdescription)]
        rw [if_neg (by simpa using hdescription)]
        refine ⟨fun h => (by cases h), fun ⟨_, _, h, _⟩ => ?_⟩
        rw [hkey] at h
        cases h

/-- The arguments `#[group(..)]` accepts. -/
theorem parseGroupArgs_iff {arguments : Arguments} {args : GroupArgs} :
    parseGroupArgs arguments = .ok args ↔ ∃ entries, arguments = some entries ∧ DeclaresGroup entries args := by
  cases arguments with
  | none => simp [parseGroupArgs]
  | some entries =>
    have hparse := @groupArgs_slots.loop_iff _ _ _ _ _ _ (fun entry : Ident × Option Expr => groupArgument entry.1) (·.2)
      _ _ GroupArgs.parse (fun _ => rfl) groupArgs_parse_cons entries {} args
    simp only [Option.some.injEq, exists_eq_left', parseGroupArgs]
    rw [hparse]
    constructor
    · intro ⟨hknown, htaken⟩
      exact ⟨hknown, given_iff.mp (htaken .name), given_iff.mp (htaken .description)⟩
    · intro h
      refine ⟨h.known, fun argument => ?_⟩
      cases argument with
      | name => exact given_iff.mpr h.name
      | description => exact given_iff.mpr h.description

end GloamCommands.Macros
