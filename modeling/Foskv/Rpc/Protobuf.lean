import Foskv.Rpc.Messages

/-! The protobuf runtime, as far as the program relies on it. -/
namespace Foskv

/-- One message type: `SerializeAsString` and `ParseFromString`, the second undoing the first. -/
class Wire (α : Type) where
  serialize : α → Bytes
  parse : Bytes → Option α
  parse_serialize : ∀ a, parse (serialize a) = some a

attribute [simp] Wire.parse_serialize

/-- The runtime: a serialisation of each message type the program stores or receives as bytes. -/
class Protobuf where
  putRequest : Wire Kv.PutRequest
  getRequest : Wire Kv.GetRequest
  deleteRequest : Wire Kv.DeleteRequest
  internalRaftRequest : Wire Raft.InternalRaftRequest
  logEntry : Wire Raft.LogEntry
  persistState : Wire Raft.PersistState

attribute [reducible, instance] Protobuf.putRequest Protobuf.getRequest Protobuf.deleteRequest
  Protobuf.internalRaftRequest Protobuf.logEntry Protobuf.persistState

/-- The messages a node takes from other members and the responses it sends: no property of their
encodings is relied on. -/
class PeerProtobuf where
  parseRequestVoteRequest : Bytes → Option Raft.RequestVoteRequest
  parseAppendEntriesRequest : Bytes → Option Raft.AppendEntriesRequest
  parseInstallSnapshotRequest : Bytes → Option Raft.InstallSnapshotRequest
  requestVoteResponse : Raft.RequestVoteResponse → Bytes
  appendEntriesResponse : Raft.AppendEntriesResponse → Bytes
  installSnapshotResponse : Raft.InstallSnapshotResponse → Bytes
  kvResponse : Kv.Response → Bytes

end Foskv
