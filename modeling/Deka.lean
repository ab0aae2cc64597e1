import Deka.Lib.BTreeMap
import Deka.Lib.Program
import Deka.Vm.Heap
import Deka.Vm.Host
import Deka.Vm.Json
import Deka.Vm.Machine
import Deka.Vm.Drive
import Deka.Lib.Reach
import Deka.Vm.Lookup
import Deka.Vm.Collect
import Deka.Vm.HeapTyping
import Deka.Vm.JsonTyping
import Deka.Vm.HostTyping
import Deka.Vm.VmTyping
import Deka.Vm.VmRules
import Deka.Vm.BoundaryTyping
import Deka.Vm.StepTyping
import Deka.Lib.Triple
import Deka.Vm.Panics
import Deka.Vm.JoinTyping
import Deka.Vm.CollectTyping
import Deka.Vm.TaskTyping
import Deka.Vm.TableTyping
import Deka.Vm.TurnTyping
import Deka.Vm.RunTyping
import Deka.Vm.Sample
import Deka.Vm.HandleSafety
import Deka.Vm.PanicSafety
import Deka.Vm.SettleOnce
import Deka.Vm.JoinOrder
import Deka.Jwt.Base64
import Deka.Jwt.Token
import Deka.Jwt.RoundTrip
import Deka.Jwt.Sample
import Deka.Lib.Arena
import Deka.Reactive.Core
import Deka.Reactive.Machine
import Deka.Reactive.Bookkeeping
import Deka.Reactive.Handles
import Deka.Reactive.Shape
import Deka.Reactive.Moves
import Deka.Reactive.Outputs
import Deka.Reactive.Derived
import Deka.Reactive.Contents
import Deka.Reactive.Currency
import Deka.Reactive.Consistency
import Deka.Reactive.AtRest
import Deka.Reactive.Flush
import Deka.Lib.Crash
import Deka.Pm.Transaction
import Deka.Security.Policy
import Deka.Pm.Rollback
import Deka.Pm.CrashAtomic
import Deka.Pm.Resolve
import Deka.Pm.ResolveSound
import Deka.Pm.ResolveExact
import Deka.Typeck.Patterns
import Deka.Typeck.Coverage
import Deka.Typeck.Matching
import Deka.Typeck.Exhaustive
import Deka.Typeck.Accepted
import Deka.Typeck.Execution
import Deka.Lib.Reports
import Deka.Typeck.Returns
import Deka.Typeck.Noted
import Deka.Typeck.AcceptedReturns
import Deka.Vm.CollectExact
import Deka.Vm.HostRoundTrip
import Deka.Lib.Double
import Deka.Vm.ListMutation
import Deka.Tasks.Runner
import Deka.Tasks.Threads
import Deka.Tasks.Invariant
import Deka.Lib.Descent
import Deka.Tasks.Deadlock
import Deka.Tasks.Results
import Deka.Lib.Posix
import Deka.Dist.Artifact
import Deka.Dist.Authentic
import Deka.Lib.MakeDirs
import Deka.Security.Confinement
import Deka.Http.HeaderList
import Deka.Http.WireSafe
import Deka.Jwt.Canonical
import Deka.Vm.Bitwise
import Deka.Lib.Forest
import Deka.NativeIr.Selectors
import Deka.Vm.Normalize
import Deka.NativeIr.KeptInstances
import Deka.NativeIr.FailedEdits
import Deka.Vm.JwtJson
import Deka.Http.RateLimit
import Deka.Pm.Selection
import Deka.Security.PolicyJson
import Deka.Security.PolicyRoundTrip
import Deka.Lib.Cursor
import Deka.Syntax.Lexer
import Deka.Syntax.Positions
import Deka.Syntax.Nest
import Deka.Syntax.Nesting
import Deka.Dist.Slugs
import Deka.Pm.Conflicts
import Deka.Pm.Grants
import Deka.Pm.LockKept
import Deka.Security.Permissions
import Deka.Security.PermissionsExact
import Deka.Typeck.Params
import Deka.Syntax.Ast
import Deka.Syntax.Canonicalize
import Deka.Typeck.Bounds
import Deka.Typeck.Inference
import Deka.Typeck.Mutability
import Deka.Vm.CollectFailed
import Deka.Syntax.Parser
import Deka.Syntax.TypeArgs
import Deka.Typeck.CaseNames
import Deka.Pm.GrantsFollow
import Deka.Dist.BuildPlan
import Deka.Dist.Paths
import Deka.Dist.Instances
import Deka.Vm.JsonReading
import Deka.Vm.JsonRoundTrip
import Deka.Lib.Bare
import Deka.Vm.RecordOrder
import Deka.Vm.RecordStep
import Deka.Vm.TurnSlices
import Deka.Vm.RecordRun
import Deka.Syntax.Expressions
import Deka.Syntax.Pratt
