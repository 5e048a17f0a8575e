import GloamCommands.Core.Agreement
import GloamCommands.Lib.Runs
import GloamCommands.Response.State
import GloamCommands.Response.Machine
import GloamCommands.Response.Acknowledge
import GloamCommands.Response.Visibility
import GloamCommands.Response.Failures
import GloamCommands.Execution.Cooldown
import GloamCommands.Execution.History
import GloamCommands.Execution.Lifecycle
import GloamCommands.Execution.Autocomplete
import GloamCommands.Execution.Order
import GloamCommands.Dispatch.Prepare
import GloamCommands.Dispatch.Routing
import GloamCommands.Dispatch.Permits
import GloamCommands.Dispatch.Drive
import GloamCommands.Dispatch.Synchronize
import GloamCommands.Dispatch.Linearize
import GloamCommands.Options.Choice
import GloamCommands.Options.Adapter
import GloamCommands.Macros.Choices
import GloamCommands.Macros.Acceptance
import GloamCommands.Options.Spelling
import GloamCommands.Dispatch.Builder
import GloamCommands.Dispatch.Limits
import GloamCommands.Dispatch.Progress
import GloamCommands.Dispatch.Shutdown
import GloamCommands.Dispatch.Survival
import GloamCommands.Dispatch.Cooldowns
import GloamCommands.Dispatch.Observability
import GloamCommands.Dispatch.Submission
import GloamCommands.Macros.Payload
import GloamCommands.Dispatch.Balance
import GloamCommands.Response.Drain
import GloamCommands.Core.Declared
import GloamCommands.Dispatch.Handles
import GloamCommands.Dispatch.Joining
import GloamCommands.Dispatch.Routes
import GloamCommands.Dispatch.Completion
import GloamCommands.Lib.Refine
import GloamCommands.Macros.Handlers
import GloamCommands.Macros.Linking
import GloamCommands.Response.Conversation
import GloamCommands.Response.Orderly
import GloamCommands.Core.Faults
import GloamCommands.Dispatch.Refusals
import GloamCommands.Dispatch.Run
import GloamCommands.Dispatch.Unroutable
import GloamCommands.Lib.Slots
import GloamCommands.Macros.Arguments
import GloamCommands.Macros.Nest
import GloamCommands.Macros.Enums
