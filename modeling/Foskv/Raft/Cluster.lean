import Foskv.Generic.Run
import Foskv.Raft.Requests

/-! A cluster: the members' nodes, the messages in flight between them and what has been
observed so far. Any message in flight may be delivered next, or lost; a request is answered
once, when it is delivered. Nodes do not restart. -/
namespace Foskv.Raft

/-- The configuration shared by the members. -/
structure ClusterConfig where
  clusterId : ℕ
  peers : List Peer
  distinct : (peers.map Peer.memberId).Nodup

def ClusterConfig.members (C : ClusterConfig) : List MemberId := C.peers.map Peer.memberId

def ClusterConfig.cfg (C : ClusterConfig) (m : MemberId) : RaftConfig := ⟨C.clusterId,m,C.peers⟩

/-- A message in flight. -/
structure Packet where
  sender : MemberId
  receiver : MemberId
  body : Body
  deriving DecidableEq

/-- The message an event of member `m` puts in flight. -/
def packetOf (m : MemberId) : Event → Option Packet
  | .sent receiver body => some ⟨m,receiver,body⟩
  | _ => none

structure Cluster where
  node : MemberId → RaftNode
  network : List Packet
  history : List (MemberId × Event)

inductive Label
  | electionTimeout (m : MemberId)
  | heartbeatTimeout (m : MemberId)
  | client (m : MemberId) (io : DiskOutcome) (method : KvMethod) (reqPayload : Bytes)
      (sessionId requestId : ℕ)
  | deliver (k : ℕ) (io : DiskOutcome) (live : List ℕ)
  | lose (k : ℕ)
  deriving DecidableEq

namespace Cluster

variable [Protobuf] (C : ClusterConfig)

/-- Member `m` takes one step while `network` is in flight. -/
def act (s : Cluster) (m : MemberId) (io : DiskOutcome) (input : Input)
    (network : List Packet) : Option Cluster := do
  let (n,events) ← (s.node m).step (C.cfg m) io input
  return {
    node := Function.update s.node m n
    network := network ++ events.filterMap (packetOf m)
    history := s.history ++ events.map (m,·) }

def step (s : Cluster) : Label → Option Cluster
  | .electionTimeout m =>
    if m ∈ C.members then s.act C m .ok .electionTimeout s.network else none
  | .heartbeatTimeout m =>
    if m ∈ C.members then s.act C m .ok .heartbeatTimeout s.network else none
  | .client m io method reqPayload sessionId requestId =>
    if m ∈ C.members then
      s.act C m io (.client method reqPayload sessionId requestId) s.network
    else none
  | .deliver k io live => do
    let p ← s.network[k]?
    s.act C p.receiver io (.receive p.sender p.body live) (s.network.eraseIdx k)
  | .lose k =>
    if k < s.network.length then some { s with network := s.network.eraseIdx k } else none

end Cluster

/-- A node just created on an empty raft store. -/
def RaftNode.fresh (kv : Storage) : RaftNode where
  role := .follower
  votes := 0
  leaderId := none
  stateMachine := ⟨kv,[]⟩
  currentTerm := 0
  votedFor := none
  logs := ⟨1,[],⟨Storage.empty.batchWrite
    [.put firstIndexKey (toString 1),.put lastIndexKey (toString 0)]⟩⟩
  commitIndex := 0
  lastApplied := 0
  nextIndex := ∅
  matchIndex := ∅

theorem RaftNode.create_empty [Protobuf] (kv : Storage) :
    RaftNode.create Storage.empty kv true = .ok (.fresh kv) := rfl

/-- The start of a run: every member is new and holds its own key-value store. -/
def Cluster.init (kv : MemberId → Storage) : Cluster where
  node m := .fresh (kv m)
  network := []
  history := []

/-- A run of the cluster all of whose steps meet a condition. -/
abbrev Cluster.Run [Protobuf] (C : ClusterConfig) (ok : Cluster → Label → Prop)
    (kv : MemberId → Storage) : List Label → Cluster → Prop :=
  Generic.Run (Cluster.step C) ok (Cluster.init kv)

/-- Any run at all. -/
def anyStep (_ : Cluster) (_ : Label) : Prop := True

/-- No message overtakes an earlier one from the same sender to the same receiver, and none is
lost. -/
def Cluster.InOrder (s : Cluster) : Label → Prop
  | .deliver k _ _ => ∀ p ∈ s.network[k]?, ∀ q ∈ s.network.take k,
    ¬(q.sender = p.sender ∧ q.receiver = p.receiver)
  | .lose _ => False
  | _ => True

instance (s : Cluster) (l : Label) : Decidable (s.InOrder l) :=
  match l with
  | .deliver k _ _ => inferInstanceAs (Decidable (∀ p ∈ s.network[k]?, ∀ q ∈ s.network.take k,
      ¬(q.sender = p.sender ∧ q.receiver = p.receiver)))
  | .electionTimeout _ => .isTrue trivial
  | .heartbeatTimeout _ => .isTrue trivial
  | .client .. => .isTrue trivial
  | .lose _ => .isFalse id

end Foskv.Raft
