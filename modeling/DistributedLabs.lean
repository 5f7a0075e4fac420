import DistributedLabs.Raft.Cluster
import DistributedLabs.Raft.Steps
import DistributedLabs.Raft.Votes
import DistributedLabs.Raft.Calls
import DistributedLabs.Raft.OneVote
import DistributedLabs.Raft.Counting
import DistributedLabs.Raft.ElectionSafety
import DistributedLabs.Raft.Authenticity
import DistributedLabs.KVSrv.Server
import DistributedLabs.KVSrv.Versions
import DistributedLabs.Linearizability.Points
import DistributedLabs.KVSrv.Clerk
import DistributedLabs.KVSrv.Attempts
import DistributedLabs.KVSrv.Linearizable
import DistributedLabs.KVSrv.Programs
import DistributedLabs.Lock.Client
import DistributedLabs.Lock.MutualExclusion
import DistributedLabs.Grouping.Adjacent
import DistributedLabs.Grouping.Fields
import DistributedLabs.MR.Job
import DistributedLabs.MR.Sequential
import DistributedLabs.MR.Coordinator
import DistributedLabs.MR.Worker
import DistributedLabs.MR.Tasks
import DistributedLabs.MR.Barrier
import DistributedLabs.MR.Work
import DistributedLabs.MR.Outputs
import DistributedLabs.MR.Published
import DistributedLabs.MR.Completeness
import DistributedLabs.MR.Lines
import DistributedLabs.MR.WordCount
import DistributedLabs.MR.Indexer
import DistributedLabs.Locking.WaitGraph
import DistributedLabs.MR.Locks
import DistributedLabs.MR.Reach
import DistributedLabs.MR.Deadlock
import DistributedLabs.MR.Copies
import DistributedLabs.MR.Retained
import DistributedLabs.MR.Dangling
import DistributedLabs.Balance.Loads
import DistributedLabs.Shardcfg.Config
import DistributedLabs.Shardcfg.Calls
import DistributedLabs.Raft.Terms
import DistributedLabs.Raft.VoteTerm
import DistributedLabs.Raft.Timers
import DistributedLabs.KVSrv.Outcomes
import DistributedLabs.Lock.Ownership
import DistributedLabs.KVTest.Append
import DistributedLabs.KVTest.Kept
import DistributedLabs.KVTest.Check
import DistributedLabs.Balance.Moves
import DistributedLabs.Shardcfg.Minimal
import DistributedLabs.Linearizability.Locality
import DistributedLabs.Models.Kv
import DistributedLabs.Shardcfg.Refusals
import DistributedLabs.Models.Agreement
import DistributedLabs.Models.PerKey
import DistributedLabs.Labrpc.Calls
import DistributedLabs.Labrpc.Semantics
import DistributedLabs.Counting.Tally
import DistributedLabs.MR.Visible
import DistributedLabs.MR.Flow
import DistributedLabs.MR.Jams
import DistributedLabs.Shardcfg.Members
import DistributedLabs.KVSrv.SoleWriter
import DistributedLabs.Raft.Expiry
import DistributedLabs.Tester.Ends
import DistributedLabs.Tester.Group
import DistributedLabs.Tester.Partition
import DistributedLabs.Tester.Connected
import DistributedLabs.Tester.Clients
import DistributedLabs.Tester.Timeline
import DistributedLabs.Tester.Persister
import DistributedLabs.Tester.Restart
import DistributedLabs.Labgob.CheckType
import DistributedLabs.Labgob.CheckDefault
import DistributedLabs.KVSrv.Accounts
import DistributedLabs.KVTest.Puts
import DistributedLabs.KVTest.PutsCheck
import DistributedLabs.KVTest.PutCounts
import DistributedLabs.KVSrv.Refinement
import DistributedLabs.KVSrv.Writing
import DistributedLabs.Lock.Test
import DistributedLabs.Lock.TestPasses
import DistributedLabs.KVSrv.Progress
import DistributedLabs.Lock.Progress
import DistributedLabs.KVTest.OpLog
import DistributedLabs.KVTest.Recorded
import DistributedLabs.KVTest.Porcupine
import DistributedLabs.RaftTest.Harness
import DistributedLabs.RaftTest.Exactness
import DistributedLabs.RaftTest.Snapshots
import DistributedLabs.RaftTest.Leaders
import DistributedLabs.Raft.Electable
