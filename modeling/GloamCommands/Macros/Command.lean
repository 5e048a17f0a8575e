/-
  GloamCommands.Macros.Command — what `#[command]` makes of a function (`CommandArgs`,
  `expand` in crates/gloam-commands-macros/src/command.rs).

  The expansion reads the arguments, checks the signature, and reads the parameters
  (`Macros.Options`); what it generates is a factory for one leaf. What the generated
  code names is rustc's to resolve, and an `Environment` says what it resolves to: the
  handlers and checks by their paths, the permissions, and each type's `KIND` and
  `CHOICES`. A factory panics when tokio refuses the semaphore of `max_concurrency`.
-/

import GloamCommands.Core.Command
import GloamCommands.Macros.Options
import GloamCommands.Options.Extract

namespace GloamCommands.Macros

/-! ## Arguments -/

inductive CommandContext where
  | guild
  | botDm
  | privateChannel
  deriving DecidableEq, Repr

def CommandContext.parse (value : String) : Expansion CommandContext :=
  match value with
  | "guild" => .ok .guild
  | "bot_dm" => .ok .botDm
  | "private_channel" => .ok .privateChannel
  | _ => .error (.message "unsupported command context; expected `guild`, `bot_dm`, or `private_channel`")

def CommandContext.tokens : CommandContext → InteractionContextType
  | guild => .guild
  | botDm => .botDm
  | privateChannel => .privateChannel

structure CommandArgs where
  name : Option String := none
  description : Option String := none
  checks : List Path := []
  contexts : List CommandContext := []
  guildOnly : Bool := false
  memberPermissions : Option Expr := none
  botPermissions : Option Expr := none
  cooldownSeconds : Option Nat := none
  maxConcurrency : Option Nat := none

def parseLitStr : Expr → Expansion String
  | .lit (.str value) => .ok value
  | _ => .error .parse

/-- `parse::<LitInt>`, and its digits as an unsigned integer of a width. -/
def parseUnsigned (bits : Nat) (error : String) : Expr → Expansion Nat
  | .lit (.int sign digits) =>
    if sign || decide (2 ^ bits ≤ digits) then .error (.message error) else .ok digits
  | .neg (.lit (.int _ _)) => .error (.message error)
  | _ => .error .parse

def parseLimit (expression : Expr) : Expansion Nat :=
  match parseUnsigned 64 "`max_concurrency` must be a positive integer" expression with
  | .error error => .error error
  | .ok limit =>
    if limit = 0 then .error (.message "`max_concurrency` must be greater than zero") else .ok limit

def validateHandlerPath (path : Path) (kind : String) : Expansion Unit :=
  if path.segments.isEmpty || path.segments.any (fun segment => !segment.arguments.isNone) then
    .error (.message ("`" ++ kind ++ "` requires a handler function path"))
  else .ok ()

def pathDisplay (path : Path) : String := "::".intercalate (path.segments.map (·.ident.unraw))

def takeOnce {α : Type} (parse : Expr → Expansion α) (name : String) (slot : Option α) (value : Expr) :
    Expansion (Option α) :=
  match parse value with
  | .error error => .error error
  | .ok parsed => if slot.isSome then .error (.message ("duplicate `" ++ name ++ "` argument")) else .ok (some parsed)

def takeCheck (checks : List Path) : Expr → Expansion (List Path)
  | .path false path =>
    match validateHandlerPath path "check" with
    | .error error => .error error
    | .ok () =>
      if pathDisplay path ∈ checks.map pathDisplay then .error (.message "duplicate command check")
      else .ok (checks ++ [path])
  | _ => .error .parse

def takeContext (contexts : List CommandContext) (value : Expr) : Expansion (List CommandContext) :=
  match parseLitStr value with
  | .error error => .error error
  | .ok value =>
    match CommandContext.parse value with
    | .error error => .error error
    | .ok context =>
      if context ∈ contexts then .error (.message "duplicate command context") else .ok (contexts ++ [context])

inductive CommandArgument where
  | guildOnly
  | name
  | description
  | check
  | context
  | memberPermissions
  | botPermissions
  | cooldown
  | maxConcurrency
  deriving DecidableEq, Repr

def commandArgument (key : Ident) : Option CommandArgument :=
  match key.toString with
  | "guild_only" => some .guildOnly
  | "name" => some .name
  | "description" => some .description
  | "check" => some .check
  | "context" => some .context
  | "member_permissions" => some .memberPermissions
  | "bot_permissions" => some .botPermissions
  | "cooldown" => some .cooldown
  | "max_concurrency" => some .maxConcurrency
  | _ => none

/-- An argument with its value; `guild_only` has none. -/
def CommandArgs.takeValue (args : CommandArgs) (value : Expr) : CommandArgument → Expansion CommandArgs
  | .guildOnly => .error .parse
  | .name => (takeOnce parseLitStr "name" args.name value).map fun name => { args with name := name }
  | .description =>
    (takeOnce parseLitStr "description" args.description value).map fun d => { args with description := d }
  | .check => (takeCheck args.checks value).map fun checks => { args with checks := checks }
  | .context => (takeContext args.contexts value).map fun contexts => { args with contexts := contexts }
  | .memberPermissions =>
    (takeOnce .ok "member_permissions" args.memberPermissions value).map fun p => { args with memberPermissions := p }
  | .botPermissions =>
    (takeOnce .ok "bot_permissions" args.botPermissions value).map fun p => { args with botPermissions := p }
  | .cooldown =>
    (takeOnce (parseUnsigned 64 "`cooldown` must be a non-negative integer") "cooldown" args.cooldownSeconds value).map
      fun seconds => { args with cooldownSeconds := seconds }
  | .maxConcurrency =>
    (takeOnce parseLimit "max_concurrency" args.maxConcurrency value).map fun limit => { args with maxConcurrency := limit }

def CommandArgs.take (args : CommandArgs) : Ident × Option Expr → Expansion CommandArgs
  | (key, none) =>
    if commandArgument key = some .guildOnly then
      if args.guildOnly then .error (.message "duplicate `guild_only` argument") else .ok { args with guildOnly := true }
    else .error .parse
  | (key, some value) =>
    match commandArgument key with
    | some argument => args.takeValue value argument
    | none =>
      .error (.message "unsupported command argument; expected `name`, `description`, `check`, `context`, `guild_only`, `member_permissions`, `bot_permissions`, `cooldown`, or `max_concurrency`")

def CommandArgs.parse (args : CommandArgs) : List (Ident × Option Expr) → Expansion CommandArgs
  | [] => .ok args
  | entry :: rest =>
    match args.take entry with
    | .error error => .error error
    | .ok args => parse args rest

def parseCommandArgs : Arguments → Expansion CommandArgs
  | none => .error .parse
  | some entries =>
    match CommandArgs.parse {} entries with
    | .error error => .error error
    | .ok args =>
      if args.guildOnly && !args.contexts.isEmpty then
        .error (.message "`guild_only` cannot be combined with explicit `context = ...` arguments")
      else .ok args

/-! ## The function -/

structure ItemFn where
  attrs : List Attribute
  ident : Ident
  isAsync : Bool
  isConst : Bool
  isUnsafe : Bool
  hasAbi : Bool
  /-- It has type parameters or a `where` clause. -/
  isGeneric : Bool
  isVariadic : Bool
  inputs : List FnArg
  output : Option RustType

def validateReturnType : Option RustType → Expansion Unit
  | some (.path segments) =>
    match segments.getLast? with
    | some (.mk ident (.angleBracketed [.type (.tuple [])])) =>
      if ident.toString != "Result" then .error (.message "slash commands must return `Result<()>`") else .ok ()
    | _ => .error (.message "slash commands must return `Result<()>`")
  | _ => .error (.message "slash commands must return `Result<()>`")

def contextRefused : SynError := .message "slash-command context parameter must have type `Context<D>`"

def contextType (function : ItemFn) : Expansion RustType :=
  match function.inputs.head? with
  | none => .error (.message "slash commands require a `Context<D>` parameter")
  | some .receiver =>
    .error (.message "slash commands must be free functions whose first parameter is `Context<D>`")
  | some (.typed _ _ (.path segments)) =>
    match segments.getLast? with
    | none => .error contextRefused
    | some segment => if segment.ident.toString != "Context" then .error contextRefused else .ok (.path segments)
  | some (.typed _ _ _) => .error contextRefused

/-- The source's `unreachable!` and `expect` are the last two cases. -/
def stateType : RustType → Expansion RustType
  | .path segments =>
    match segments.getLast? with
    | some segment =>
      match segment.arguments with
      | .angleBracketed [.type stateType] => .ok stateType
      | .angleBracketed [.other] => .error (.message "`Context` requires an application-state type parameter")
      | _ => .error (.message "`Context` requires exactly one application-state type parameter")
    | none => .error .parse
  | _ => .error .parse

def validateSignature (function : ItemFn) : Expansion Unit :=
  if !function.isAsync then .error (.message "slash commands must be declared with `async fn`")
  else if function.isConst then .error (.message "slash commands cannot be `const`")
  else if function.isUnsafe then .error (.message "slash commands cannot be `unsafe`")
  else if function.hasAbi then .error (.message "slash commands cannot declare an explicit ABI")
  else if function.isGeneric then .error (.message "generic slash-command handlers are not supported")
  else if function.isVariadic then .error (.message "variadic slash-command handlers are not supported")
  else
    match validateReturnType function.output with
    | .error error => .error error
    | .ok () => (contextType function).map fun _ => ()

/-! ## The expansion -/

structure CommandExpansion where
  function : ItemFn
  args : CommandArgs
  name : String
  description : String
  stateType : RustType
  options : List OptionParameter

def expandNamed (unicode : Unicode) (function : ItemFn) (args : CommandArgs) (name description : String) :
    Expansion CommandExpansion :=
  match validateName unicode name with
  | .error error => .error error
  | .ok () =>
    match validateDescription description with
    | .error error => .error error
    | .ok () =>
      match contextType function with
      | .error error => .error error
      | .ok context =>
        match stateType context with
        | .error error => .error error
        | .ok state =>
          match optionParameters unicode function.inputs with
          | .error error => .error error
          | .ok options => .ok ⟨function, args, name, description, state, options⟩

def expandCommand (unicode : Unicode) (arguments : Arguments) (function : ItemFn) : Expansion CommandExpansion :=
  match parseCommandArgs arguments with
  | .error error => .error error
  | .ok args =>
    match validateSignature function with
    | .error error => .error error
    | .ok () =>
      match args.description with
      | none => .error (.message "slash commands require `description = \"...\"`")
      | some description => expandNamed unicode function args (args.name.getD function.ident.unraw) description

/-! ## The generated factory -/

/-- The `KIND` of the framework's type for a scalar. -/
def OptionKind.discord : OptionKind → ApplicationCommandOptionType
  | string => Options.stringOption.kind
  | boolean => Options.boolOption.kind
  | integer => Options.i64Option.kind
  | number => Options.f64Option.kind
  | user => Options.IdType.user.kind
  | channel => Options.IdType.channel.kind
  | role => Options.IdType.role.kind
  | attachment => Options.IdType.attachment.kind

/-- What the names in the generated code denote. -/
structure Environment (D : Type) where
  kind : RustType → ApplicationCommandOptionType
  choices : RustType → List CommandChoiceDescriptor
  permissions : Expr → Permissions
  check : Path → CheckHandler D
  autocomplete : Path → AutocompleteHandler D
  /-- The generated adapter of a function. -/
  handler : ItemFn → CommandHandler D

variable {D : Type}

/-- rustc takes the names that the macro takes for a scalar to be the framework's type, and
    `Option` to be the standard one, whose `KIND` is its type's. -/
def Environment.Resolves (env : Environment D) : Prop :=
  ∀ ty kind required, optionType ty = .ok (kind, required) → env.kind ty = kind.discord

def inlineChoice (choice : InlineChoice) : CommandChoiceDescriptor where
  name := choice.name
  value :=
    match choice.value with
    | .string value => .string value
    | .integer value => .integer value
    | .number value => .number value

def NumericBound.value : NumericBound → ApplicationCommandNumericValue
  | integer value => .integer value
  | number value => .number value

def optionDescriptor (env : Environment D) (option : OptionParameter) : CommandOptionDescriptor where
  name := option.name
  description := option.description
  kind := env.kind option.ty
  required := option.required
  choices :=
    match option.choices with
    | .none => []
    | .typed => env.choices option.ty
    | .inline choices => choices.map inlineChoice
  autocomplete := option.autocomplete.isSome
  minValue := option.min.map NumericBound.value
  maxValue := option.max.map NumericBound.value
  minLength := option.minLength
  maxLength := option.maxLength

/-- The largest number of permits of a tokio semaphore, `usize::MAX >> 3`. -/
def maxPermits : Nat := (2 ^ 64 - 1) / 8

def CommandArgs.hasPolicy (args : CommandArgs) : Bool :=
  !args.checks.isEmpty || !args.contexts.isEmpty || args.guildOnly || args.memberPermissions.isSome ||
    args.botPermissions.isSome || args.cooldownSeconds.isSome || args.maxConcurrency.isSome

def CommandArgs.policy (env : Environment D) (args : CommandArgs) : Option (CommandPolicy D) :=
  if args.maxConcurrency.any (fun limit => maxPermits < limit) then none
  else
    some {
      checks := args.checks.map fun path => ⟨pathDisplay path, env.check path⟩
      contexts := if args.guildOnly then [.guild] else args.contexts.map CommandContext.tokens
      memberPermissions := args.memberPermissions.map env.permissions
      botPermissions := args.botPermissions.map env.permissions
      cooldown := args.cooldownSeconds.map (· * 10 ^ 9)
      maxConcurrency := args.maxConcurrency }

namespace CommandExpansion

def descriptor (env : Environment D) (expansion : CommandExpansion) : CommandDescriptor where
  name := expansion.name
  description := expansion.description
  options := expansion.options.map (optionDescriptor env)

def autocompleteHandlers (env : Environment D) (expansion : CommandExpansion) : List (AutocompleteHandlerDescriptor D) :=
  expansion.options.filterMap fun option => option.autocomplete.map fun path => ⟨option.name, env.autocomplete path⟩

/-- The factory: the leaf it returns, or none when it panics. -/
def factory (env : Environment D) (expansion : CommandExpansion) : Option (SlashCommand D) :=
  let descriptor := expansion.descriptor env
  let handler := env.handler expansion.function
  let autocomplete := expansion.autocompleteHandlers env
  match autocomplete.isEmpty, expansion.args.hasPolicy with
  | true, false => some (.leaf descriptor { handler := handler })
  | false, false => some (.leaf descriptor { handler := handler, autocomplete := autocomplete })
  | true, true => (expansion.args.policy env).map fun policy => .leaf descriptor { handler := handler, policy := policy }
  | false, true =>
    (expansion.args.policy env).map fun policy =>
      .leaf descriptor { handler := handler, autocomplete := autocomplete, policy := policy }

end CommandExpansion

end GloamCommands.Macros
