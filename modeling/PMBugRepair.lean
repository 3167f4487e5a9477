import PMBugRepair.Smt.Formula
import PMBugRepair.Smt.Enumeration
import PMBugRepair.Step1.Basic
import PMBugRepair.Step1.Dura
import PMBugRepair.Step1.Mpb
import PMBugRepair.Schedule.Order
import PMBugRepair.Step1.MpbSound
import PMBugRepair.Step1.MpbRepair
import PMBugRepair.Step1.Thread
import PMBugRepair.Step1.Arrange
import PMBugRepair.Step1.MpbComplete
import PMBugRepair.Step1.Complete
import PMBugRepair.Step1.Regress
import PMBugRepair.Step4.Append
import PMBugRepair.Step4.Core
import PMBugRepair.Step4.Conserve
import PMBugRepair.Step4.AddLocks
import PMBugRepair.Step4.Sections
import PMBugRepair.Step4.Verdict
import PMBugRepair.Step4.Deadlocks
import PMBugRepair.Step4.Sound
import PMBugRepair.Step4.Pieces
import PMBugRepair.Step4.Phases
import PMBugRepair.Step4.Call
import PMBugRepair.Step4.Run
import PMBugRepair.Step4.Stops
import PMBugRepair.Step4.Persists
import PMBugRepair.Step1.Recombine
import PMBugRepair.Containers.OrderedMap
import PMBugRepair.Runtime.Log
import PMBugRepair.Runtime.Pm
import PMBugRepair.Step1.Membership
import PMBugRepair.Formatter.Rows
import PMBugRepair.Formatter.ReadBack
import PMBugRepair.Formatter.Reader
import PMBugRepair.Formatter.Dependencies
import PMBugRepair.Step1.Breach
import PMBugRepair.Files.Trace
import PMBugRepair.Files.RoundTrip
import PMBugRepair.Bugs.Lines
import PMBugRepair.Bugs.Scopes
import PMBugRepair.Bugs.Context
import PMBugRepair.Bugs.Convert
import PMBugRepair.Bugs.Convert4
import PMBugRepair.Bugs.Index
import PMBugRepair.Bugs.ReadMPAs
import PMBugRepair.Containers.Stutter
import PMBugRepair.Runtime.Entries
import PMBugRepair.Formatter.Words
import PMBugRepair.Formatter.Once
import PMBugRepair.Formatter.Parent
import PMBugRepair.Bugs.ReadBugs
import PMBugRepair.Step1.Kind
import PMBugRepair.Containers.BinaryHeap
import PMBugRepair.ThreadTrove.Heap
import PMBugRepair.Machine.Runs
import PMBugRepair.ThreadTrove.HeapThreads
import PMBugRepair.Memory.Chain
import PMBugRepair.ThreadTrove.Deque
import PMBugRepair.Containers.Shadowing
import PMBugRepair.ThreadTrove.Graph
import PMBugRepair.ThreadTrove.Hash
import PMBugRepair.ThreadTrove.Queue
import PMBugRepair.Containers.StableQueue
import PMBugRepair.ThreadTrove.PriorityQueue
import PMBugRepair.Step4.Alternating
import PMBugRepair.Containers.MapVector
import PMBugRepair.Flow.PostDominance
import PMBugRepair.Transform.Dependency
import PMBugRepair.Transform.Frontiers
import PMBugRepair.Transform.ControlDependence
import PMBugRepair.SameFunction
import PMBugRepair.Step4.Counters
import PMBugRepair.Bugs.ReadBack
import PMBugRepair.Step1.Report
import PMBugRepair.Persistency.Memory
import PMBugRepair.Step1.Crash
import PMBugRepair.Pipeline
import PMBugRepair.Transform.Calls
import PMBugRepair.Transform.Numbers
import PMBugRepair.Formatter.Sources
import PMBugRepair.Runtime.Edges
import PMBugRepair.Schedule.Mutex
import PMBugRepair.Step4.Threads
import PMBugRepair.Runtime.Functions
