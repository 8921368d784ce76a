import Technosphere.Lib.Tiling
import Technosphere.Allocator.Basic
import Technosphere.Allocator.Theorems.FreeList
import Technosphere.Allocator.Theorems.Invariant
import Technosphere.Allocator.Theorems.Defrag
import Technosphere.Allocator.Theorems.Runs
import Technosphere.Allocator.Theorems.Safety
import Technosphere.Allocator.Theorems.Integrity
import Technosphere.Allocator.Theorems.Session
import Technosphere.Lib.AndOr
import Technosphere.Lib.Descriptors
import Technosphere.Lib.While
import Technosphere.Shell.Basic
import Technosphere.Shell.Line
import Technosphere.Shell.Theorems.Calls
import Technosphere.Shell.Theorems.Pipelines
import Technosphere.Shell.Theorems.ShortCircuit
import Technosphere.Shell.Theorems.Progress
import Technosphere.Shell.Theorems.Ready
import Technosphere.Shell.Theorems.PipeEnds
import Technosphere.Chat.Basic
import Technosphere.Chat.Theorems.Broadcast
import Technosphere.Lib.Relay
import Technosphere.Proxy.Basic
import Technosphere.Proxy.Theorems.Connections
import Technosphere.Proxy.Theorems.Forwarding
import Technosphere.Lib.Chunks
import Technosphere.Lib.Decimal
import Technosphere.Lib.IfStream
import Technosphere.Lib.Merge
import Technosphere.Index.Basic
import Technosphere.Index.Theorems.Pairs
import Technosphere.Index.Theorems.Split
import Technosphere.Index.Theorems.Sort
import Technosphere.Index.Theorems.Reader
import Technosphere.Index.Theorems.Encoder
import Technosphere.Lib.Groups
import Technosphere.Index.Theorems.Decoder
import Technosphere.Index.Theorems.Inverse
import Technosphere.Allocator.Theorems.FirstFit
import Technosphere.Allocator.Theorems.AnyArena
import Technosphere.Allocator.Theorems.Reads
import Technosphere.Allocator.Theorems.FailedRealloc
import Technosphere.Index.Checker
import Technosphere.Index.Theorems.Checker
import Technosphere.Chat.Theorems.Bookkeeping
import Technosphere.Chat.Theorems.Delivery
import Technosphere.Proxy.Theorems.Handlers
import Technosphere.Proxy.Theorems.Accepting
import Technosphere.Proxy.Theorems.Termination
import Technosphere.Proxy.Theorems.View
import Technosphere.Proxy.Theorems.Closing
import Technosphere.Proxy.Theorems.Isolation
import Technosphere.Lib.Intervals
import Technosphere.Allocator.Theorems.Compaction
import Technosphere.Allocator.Theorems.Frees
import Technosphere.Index.Theorems.Sentinel
import Technosphere.Index.Theorems.Truncation
import Technosphere.Chat.Theorems.Lines
import Technosphere.Lib.Munch
import Technosphere.Lib.Words
import Technosphere.Shell.Parser
import Technosphere.Shell.Theorems.Lexer
import Technosphere.Shell.Theorems.InRange
import Technosphere.Shell.Redirected
import Technosphere.Shell.Theorems.Redirects
import Technosphere.Shell.Theorems.Plumbing
import Technosphere.Shell.Theorems.RedirectedRuns
import Technosphere.Shell.Theorems.RedirectedLines
import Technosphere.Shell.Theorems.Balance
import Technosphere.Shell.Theorems.Precedence
import Technosphere.Shell.Theorems.Rounds
import Technosphere.Shell.Theorems.Launches
import Technosphere.Shell.Theorems.Shift
import Technosphere.Shell.Theorems.Skipped
import Technosphere.Shell.Theorems.ExitCode
import Technosphere.Shell.Theorems.Unopened
import Technosphere.Allocator.Theorems.Resize
import Technosphere.Allocator.Theorems.Foreign
import Technosphere.Allocator.Theorems.Stale
import Technosphere.Lib.Spacing
import Technosphere.Shell.Theorems.Spacing
import Technosphere.Index.Theorems.RunBoundaries
import Technosphere.Lib.MapM
import Technosphere.Lib.TextStream
import Technosphere.Proxy.Config
import Technosphere.Proxy.Theorems.Config
import Technosphere.Proxy.Theorems.RoundTrip
import Technosphere.Lib.Lines
import Technosphere.Chat.Client
import Technosphere.Chat.Network
import Technosphere.Chat.Theorems.Client
import Technosphere.Chat.Theorems.Network
import Technosphere.Chat.Theorems.Conversation
import Technosphere.Chat.Theorems.Deliveries
import Technosphere.Shell.Session
import Technosphere.Shell.Theorems.Jobs
import Technosphere.Shell.Theorems.Reports
import Technosphere.Shell.Theorems.Script
import Technosphere.Shell.Theorems.Text
import Technosphere.Shell.Theorems.Typed
import Technosphere.Lib.Budget
import Technosphere.Proxy.Theorems.Buffers
import Technosphere.Proxy.Theorems.Drivers
import Technosphere.Proxy.Theorems.Work
import Technosphere.Lib.Projection
import Technosphere.Lib.Regions
import Technosphere.Allocator.Shared
import Technosphere.Allocator.Theorems.Sharing
import Technosphere.Allocator.Theorems.Fragmentation
import Technosphere.Index.Theorems.AnyInput
import Technosphere.Index.Sorting
import Technosphere.Index.Theorems.Rounds
import Technosphere.Index.Theorems.Resources
