/-
  GloamCommands.Core.Error — the framework's error values (crates/gloam-commands/src/error.rs).

  Durations are nanoseconds. A `serde_json`, `tokio` or `gloamwire` error is the text or
  the cause it carries; the framework never looks inside one.
-/

namespace GloamCommands

abbrev Permissions := BitVec 64

namespace Permissions

def empty : Permissions := 0

def contains (actual required : Permissions) : Bool := actual &&& required == required

end Permissions

/-- Why a spawned task did not run to its end (`tokio::task::JoinError`). -/
inductive JoinError where
  | cancelled
  | panic
  deriving DecidableEq, Repr

inductive Error where
  | duplicateCommand (name : String)
  | duplicateCommandPath (path : String)
  | invalidCommandHierarchy (path : String)
  | unknownCommandPath (path : String)
  | invalidAutocompleteConfiguration (path : String)
  | invalidAutocompleteFocus (path : String)
  | unknownAutocompleteOption (path option : String)
  | invalidAutocompleteResponse (reason : String)
  | invalidCommandPolicy (path : String)
  | commandContextNotAllowed (path : String)
  | missingMemberPermissions (path : String) (required actual : Permissions)
  | missingBotPermissions (path : String) (required actual : Permissions)
  | commandCheckFailed (path check : String)
  | commandUserUnavailable (path : String)
  | commandOnCooldown (path : String) (retryAfter : Nat)
  | invalidConcurrencyLimit
  | invalidInteractionPayload (cause : String)
  | missingApplicationCommandData
  | missingOption (name : String)
  | invalidOption (name expected : String)
  | invalidChoice (name : String)
  | interactionNotAcknowledged
  | interactionAlreadyAcknowledged
  | originalResponseDeleted
  | responseVisibilityMismatch
  | noAsyncRuntime
  | commandSchedulerClosed
  | commandTask (cause : JoinError)
  | gloamwire (cause : String)
  deriving DecidableEq, Repr

end GloamCommands
