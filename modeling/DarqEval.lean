import DarqEval.Lib.Stages
import DarqEval.Lib.SortBy
import DarqEval.Context
import DarqEval.Capability
import DarqEval.Result
import DarqEval.Pipeline
import DarqEval.Run
import DarqEval.Outcome
import DarqEval.Grammar
import DarqEval.Leaves
import DarqEval.Merge
import DarqEval.Nesting
import DarqEval.Halt
import DarqEval.Alike
import DarqEval.Reorder
import DarqEval.Lib.Query
import DarqEval.Recording
import DarqEval.Effects
import DarqEval.Replay
import DarqEval.Downgrade
import DarqEval.Reads
import DarqEval.NestedCapability
import DarqEval.Lib.Code
import DarqEval.Lib.SortedMap
import DarqEval.Json
import DarqEval.Canonical
import DarqEval.PolicyJson
import DarqEval.Fingerprint
import DarqEval.Versions
import DarqEval.Critical
import DarqEval.Positions
import DarqEval.FailedStrategies
import DarqEval.EarlyFinalize
import DarqEval.TraceMerge
import DarqEval.Occurrences
import DarqEval.Blind
import DarqEval.PolicyReads
import DarqEval.Surroundings
import DarqEval.Compose
import DarqEval.Inline
import DarqEval.Floats
import DarqEval.Settlement
import DarqEval.Payout
import DarqEval.Pricing
import DarqEval.Flags
import DarqEval.Lib.Schedule
import DarqEval.Priorities
import DarqEval.Replays
import DarqEval.Digests
import DarqEval.Coverage
import DarqEval.Unread
import DarqEval.Explanations
import DarqEval.Phases
import DarqEval.Retries
