import MakeBelieve.Library.Machine
import MakeBelieve.Library.Acyclic
import MakeBelieve.Library.Search
import MakeBelieve.Library.Worklist
import MakeBelieve.Coordinator.Transitions
import MakeBelieve.Coordinator.Frame
import MakeBelieve.Library.Count
import MakeBelieve.Coordinator.Links
import MakeBelieve.Coordinator.Moved
import MakeBelieve.Coordinator.Invariant
import MakeBelieve.Coordinator.Stops
import MakeBelieve.Coordinator.Answers
import MakeBelieve.Coordinator.Steps
import MakeBelieve.Coordinator.Waits
import MakeBelieve.Coordinator.Runs
import MakeBelieve.Coordinator.Requests
import MakeBelieve.Coordinator.Deadlock
import MakeBelieve.Coordinator.Permits
import MakeBelieve.Library.Memo
import MakeBelieve.Tree.Data
import MakeBelieve.Tree.State
import MakeBelieve.Tree.Transitions
import MakeBelieve.Tree.Dependents
import MakeBelieve.Tree.Restore
import MakeBelieve.Tree.Restored
import MakeBelieve.Tree.Rules
import MakeBelieve.Library.IntrusiveList
import MakeBelieve.Queue.State
import MakeBelieve.Queue.Lines
import MakeBelieve.Queue.Slots
import MakeBelieve.Queue.Runs
import MakeBelieve.Queue.Conserved
import MakeBelieve.Coordinator.Steady
import MakeBelieve.Permits.State
import MakeBelieve.Queue.Leases
import MakeBelieve.Permits.View
import MakeBelieve.Permits.Runs
import MakeBelieve.Permits.Shared
import MakeBelieve.Queue.Order
import MakeBelieve.Coordinator.Hurry
import MakeBelieve.Coordinator.Cycle
import MakeBelieve.Coordinator.Delivery
import MakeBelieve.Tree.Cycle
import MakeBelieve.Coordinator.Turns
import MakeBelieve.Tree.Tidy
import MakeBelieve.Tree.World
import MakeBelieve.Tree.Ledger
import MakeBelieve.Tree.Builds
import MakeBelieve.Tree.Driven
import MakeBelieve.Tree.Sound
import MakeBelieve.Tree.Attempts
import MakeBelieve.Tree.Alone
import MakeBelieve.Tree.Eager
import MakeBelieve.Tree.Fires
import MakeBelieve.Tree.Struck
import MakeBelieve.Tree.Provenance
import MakeBelieve.Tree.Callback
import MakeBelieve.Tree.Served
import MakeBelieve.Tree.Lasting
import MakeBelieve.Tree.Layout
import MakeBelieve.Tree.Mirror
import MakeBelieve.Manifest.Rules
import MakeBelieve.Manifest.Follow
import MakeBelieve.Library.Warshall
import MakeBelieve.Manifest.Parse
import MakeBelieve.Manifest.Accept
import MakeBelieve.Manifest.Clash
import MakeBelieve.Manifest.Expand
import MakeBelieve.Manifest.Outputs
import MakeBelieve.BuildCache.Content
import MakeBelieve.BuildCache.Records
import MakeBelieve.Snapshots.Fresh
import MakeBelieve.FileSystem.Notify
import MakeBelieve.FileSystem.Announced
import MakeBelieve.FileSystem.Inodes
import MakeBelieve.FileSystem.Versions
import MakeBelieve.Tree.Recorded
import MakeBelieve.Library.Disk
import MakeBelieve.RealDirectoryTree.State
import MakeBelieve.RealDirectoryTree.Followed
import MakeBelieve.Tree.Placed
import MakeBelieve.Tree.Origins
import MakeBelieve.Tree.Opened
import MakeBelieve.Tree.Indexed
import MakeBelieve.Queue.Promoted
import MakeBelieve.Library.Spans
import MakeBelieve.Tree.Lanes
import MakeBelieve.Tree.Materialized
import MakeBelieve.Tree.Copied
import MakeBelieve.FileSystem.Parked
import MakeBelieve.Library.Json
import MakeBelieve.Tracer.Text
import MakeBelieve.Tracer.Escaping
import MakeBelieve.Tracer.Events
import MakeBelieve.Tracer.Rendering
import MakeBelieve.Tracer.Slices
import MakeBelieve.Tracer.Snapshot
import MakeBelieve.IoContext.State
import MakeBelieve.IoContext.Steps
import MakeBelieve.IoContext.Waits
import MakeBelieve.Tracer.Capacity
import MakeBelieve.Manifest.Accounts
import MakeBelieve.Manifest.SelfFeeding
import MakeBelieve.InMemoryDirectoryTree.State
import MakeBelieve.InMemoryDirectoryTree.Diffs
import MakeBelieve.BuildCache.Throwing
import MakeBelieve.FileSystem.InodeTable
import MakeBelieve.Library.Replace
import MakeBelieve.ShellRunner.Text
import MakeBelieve.ShellRunner.Quoting
import MakeBelieve.ShellRunner.Substitution
import MakeBelieve.IoContext.Tasks
import MakeBelieve.IoContext.Invariant
import MakeBelieve.IoContext.Wakes
import MakeBelieve.IoContext.Progress
import MakeBelieve.IoContext.Completion
import MakeBelieve.Tree.Stamped
import MakeBelieve.FuseDirent
import MakeBelieve.FileSystem.Listing
import MakeBelieve.ProcessUtil.Listing
import MakeBelieve.ProcessUtil.Tracer
import MakeBelieve.ProcessUtil.Requests
import MakeBelieve.ProcessUtil.Tracing
import MakeBelieve.ProcessUtil.Descriptors
import MakeBelieve.ProcessUtil.Inputs
import MakeBelieve.ProcessUtil.Reads
import MakeBelieve.ProcessUtil.RunTraced
import MakeBelieve.ProcessUtil.Child
import MakeBelieve.ProcessUtil.Outcome
import MakeBelieve.ProcessUtil.Runs
import MakeBelieve.ProcessUtil.Progress
import MakeBelieve.ProcessUtil.Returning
import MakeBelieve.UnmountChannel.State
import MakeBelieve.UnmountChannel.Requests
import MakeBelieve.UnmountChannel.Serving
import MakeBelieve.UnmountChannel.Parties
import MakeBelieve.UnmountChannel.Nearer
import MakeBelieve.UnmountChannel.Returning
import MakeBelieve.ProcessTracker.State
import MakeBelieve.ProcessTracker.Host
import MakeBelieve.ProcessTracker.Found
import MakeBelieve.ConsoleInterrupt.State
import MakeBelieve.ConsoleInterrupt.Interrupts
