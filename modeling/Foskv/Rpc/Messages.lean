import Foskv.Generic.Proto3

/-! The protobuf messages of `rpc.proto`, `kv.proto` and `raft.proto` as plain data.
Every `uint64` counter (term, log index, id) is a natural number. The requests of clients, which
may hold anything, keep the fields that their type does not know. -/
namespace Foskv
open Generic.Proto3 (UnknownFields)

/-- A `std::string` or a buffer of `char`. -/
abbrev Bytes := List UInt8

/-- The characters of an ASCII literal. -/
def ascii (s : String) : Bytes := s.toList.map fun c => UInt8.ofNat c.toNat

/-- The error codes the modelled functions return. -/
inductive Error
  | invalidLogIndex
  | logIndexToUllFailed
  | logEntriesRecoverFailed
  | logEntryParseFailed
  | persistStatePutFailed
  | persistStateParseFailed
  | logEntriesPersistFailed
  | logEntriesTruncateFailed
  | requestVoteRequestParseFailed
  | appendEntriesRequestParseFailed
  | installSnapshotRequestParseFailed
  | kvPutRequestParseFailed
  | kvGetRequestParseFailed
  | kvDeleteRequestParseFailed
  deriving DecidableEq, Repr

/-- `std::expected<T, Error>`. -/
abbrev Result (α : Type) := Except Error α

instance decidableEqResult {α : Type} [DecidableEq α] : DecidableEq (Result α)
  | .ok a,.ok b => decidable_of_iff (a = b) ⟨congrArg _,Except.ok.inj⟩
  | .error e,.error e' => decidable_of_iff (e = e') ⟨congrArg _,Except.error.inj⟩
  | .ok _,.error _ => .isFalse fun h => nomatch h
  | .error _,.ok _ => .isFalse fun h => nomatch h

namespace Rpc

/-- `RpcError::ErrorCode`. -/
inductive RpcError
  | unknown
  | noError
  | logEntryAppendOrPersistFailed
  | needRedirect
  | kvPutFailed
  | kvGetFailed
  | kvDeleteFailed
  | kvPutRequestParseFailed
  | kvGetRequestParseFailed
  | kvDeleteRequestParseFailed
  deriving DecidableEq, Repr

structure Redirect where
  host : Bytes
  port : ℕ
  deriving DecidableEq, Repr

structure ResponseHeader where
  success : Bool
  errorCode : RpcError
  redirect : Option Redirect
  deriving DecidableEq, Repr

end Rpc

namespace Kv

structure KeyValue where
  key : Bytes
  value : Bytes
  deriving DecidableEq, Repr

structure PutRequest where
  key : Bytes
  value : Bytes
  unknownFields : UnknownFields [1,2]
  deriving DecidableEq, Repr

structure GetRequest where
  key : Bytes
  unknownFields : UnknownFields [1]
  deriving DecidableEq, Repr

structure DeleteRequest where
  key : Bytes
  unknownFields : UnknownFields [1]
  deriving DecidableEq, Repr

/-- The three responses of `kv.proto`; only the one to a get carries a pair. -/
inductive Response
  | put (header : Rpc.ResponseHeader)
  | get (header : Rpc.ResponseHeader) (kv : Option KeyValue)
  | delete (header : Rpc.ResponseHeader)
  deriving DecidableEq, Repr

def Response.header : Response → Rpc.ResponseHeader
  | .put header | .get header _ | .delete header => header

end Kv

namespace Raft

abbrev MemberId := ℕ

structure ResponseHeader where
  clusterId : ℕ
  memberId : MemberId
  term : ℕ
  deriving DecidableEq, Repr

structure PersistState where
  currentTerm : ℕ
  votedFor : Option MemberId
  deriving DecidableEq, Repr

structure RequestVoteRequest where
  term : ℕ
  candidateId : MemberId
  lastLogIndex : ℕ
  lastLogTerm : ℕ
  deriving DecidableEq, Repr

structure RequestVoteResponse where
  header : ResponseHeader
  voteGranted : Bool
  deriving DecidableEq, Repr

structure LogEntry where
  term : ℕ
  index : ℕ
  command : Bytes
  deriving DecidableEq, Repr

structure AppendEntriesRequest where
  term : ℕ
  leaderId : MemberId
  prevLogIndex : ℕ
  prevLogTerm : ℕ
  entries : List LogEntry
  leaderCommit : ℕ
  deriving DecidableEq, Repr

structure AppendEntriesResponse where
  header : ResponseHeader
  success : Bool
  lastLogIndex : ℕ
  conflictIndex : ℕ
  deriving DecidableEq, Repr

structure InstallSnapshotRequest where
  term : ℕ
  leaderId : MemberId
  lastIncludedIndex : ℕ
  lastIncludedTerm : ℕ
  offset : ℕ
  data : Bytes
  done : Bool
  deriving DecidableEq, Repr

structure InstallSnapshotResponse where
  header : ResponseHeader
  deriving DecidableEq, Repr

/-- The command of a log entry: a `oneof` that may also be unset. -/
inductive InternalRaftRequest
  | kvPut (request : Kv.PutRequest)
  | kvGet (request : Kv.GetRequest)
  | kvDelete (request : Kv.DeleteRequest)
  | notSet
  deriving DecidableEq, Repr

end Raft
end Foskv
