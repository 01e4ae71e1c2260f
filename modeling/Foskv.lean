import Foskv.Raft.Safety
import Foskv.Generic.JsonText
import Foskv.Raft.AppendReference
import Foskv.Raft.ApplyPaths
import Foskv.Raft.Availability
import Foskv.Raft.BufferSizes
import Foskv.Raft.CatchUp
import Foskv.Raft.ConfigFailures
import Foskv.Raft.Crashes
import Foskv.Raft.EndToEnd
import Foskv.Raft.FollowerCommit
import Foskv.Raft.KvHandlers
import Foskv.Raft.Linearizability
import Foskv.Raft.Locking
import Foskv.Raft.LogRanges
import Foskv.Raft.Membership
import Foskv.Raft.MessageSize
import Foskv.Raft.NextIndex
import Foskv.Raft.Overreads
import Foskv.Raft.Positions
import Foskv.Raft.Proposer
import Foskv.Raft.Redirects
import Foskv.Raft.Refinement
import Foskv.Raft.Replay
import Foskv.Raft.Restarts
import Foskv.Raft.Roles
import Foskv.Raft.SessionQueue
import Foskv.Raft.Sessions
import Foskv.Raft.Terms
import Foskv.Raft.Validity
import Foskv.Raft.VoteComparison
import Foskv.Raft.VoteRegister
import Foskv.Rpc.Consumer
import Foskv.Rpc.Proto3
import Foskv.Storage.Command
