import OsLab.Malloc.Pages
import OsLab.Malloc.Scope
import OsLab.Malloc.Range
import OsLab.Malloc.Memory
import OsLab.Malloc.Creation
import OsLab.Malloc.Peak
import OsLab.Malloc.Nesting
import OsLab.Malloc.PrintList
import OsLab.Malloc.InitVectors
import OsLab.Malloc.MergeProof
import OsLab.Malloc.MergeFailure
import OsLab.Malloc.Store
import OsLab.Paths.Splice
import OsLab.Paths.Overflow
import OsLab.Paths.Rounds
import OsLab.Paths.Routes
import OsLab.Paths.Capacity
import OsLab.Paths.Mapping
import OsLab.Paths.Partition
import OsLab.Paths.Sampling
import OsLab.Paths.Followers
import OsLab.Paths.AllPairs
import OsLab.Paths.OptimSystem
import OsLab.Hotel.Evictions
import OsLab.Hotel.Stays
import OsLab.Hotel.CleanMutex
import OsLab.Hotel.Priorities
import OsLab.Feed.UserRun
import OsLab.Feed.Delivery
import OsLab.Feed.PushRun
import OsLab.Feed.Stranded
import OsLab.Feed.Dropped
import OsLab.Feed.Wakeups
import OsLab.Feed.Once
import OsLab.Feed.Locks
import OsLab.Feed.Chronological
import OsLab.Feed.Priority
import OsLab.Feed.Received
import OsLab.Shell.Print
import OsLab.Shell.Background
import OsLab.Shell.Grammar
import OsLab.Shell.Escapes
import OsLab.Shell.Argv
import OsLab.Shell.Segments
import OsLab.Lib.Traced
import OsLab.Shell.Bounds
import OsLab.Shell.Stat
import OsLab.Shell.Children
import OsLab.Shell.Editor
import OsLab.Shell.Tracking
import OsLab.Shell.Root
import OsLab.Shell.History
import OsLab.Chaos.Rows
import OsLab.Chaos.Announced
import OsLab.Chaos.Refinement
import OsLab.Malloc.Program
import OsLab.Scripts.Factor
import OsLab.Scripts.Lcm
import OsLab.Scripts.Ledger
import OsLab.Scripts.AlternateCase
import OsLab.Shell.Descriptors
import OsLab.Shell.Wiring
import OsLab.Shell.Groups
import OsLab.Shell.Evaluation
import OsLab.Shell.Display
