import Foskv.Raft.KvRequests
import Foskv.Rpc.Framing
import Foskv.Rpc.Proto3

/-! The sizes of the messages that a client's request ends up in. What a request holds besides its
own fields is written again with it. -/
namespace Foskv.Raft
open Generic Generic.Proto3

attribute [local instance] Proto3.protobuf

/-- The payload handed to `RpcConsumer::call`. -/
def AppendEntriesRequest.payload (r : AppendEntriesRequest) : Bytes :=
  Proto3.serializeAsString (Proto3.appendEntriesRequestFields r)

def LogEntry.size (e : LogEntry) : ℕ :=
  numberSize e.term + numberSize e.index + bytesSize e.command.length

/-- The size of a request from the numbers in its header and the sizes of its entries. -/
def requestSize (term leaderId prevLogIndex prevLogTerm leaderCommit : ℕ) (entries : List ℕ) : ℕ :=
  numberSize term + numberSize leaderId + numberSize prevLogIndex + numberSize prevLogTerm +
    (entries.map messageSize).sum + numberSize leaderCommit

/-- The size of a put from the lengths of the client's strings and the sizes of the other fields. -/
def putRequestSize (request : Kv.PutRequest) : ℕ :=
  bytesSize request.key.length + bytesSize request.value.length + request.unknownFields.size

/-- The size of a command. -/
def commandSize : InternalRaftRequest → ℕ
  | .kvPut request => messageSize (putRequestSize request)
  | .kvGet request => messageSize (bytesSize request.key.length + request.unknownFields.size)
  | .kvDelete request => messageSize (bytesSize request.key.length + request.unknownFields.size)
  | .notSet => 0

/-- The entry of a command at the end of the log, from the numbers and lengths in it. -/
def RaftNode.entrySize (n : RaftNode) (command : InternalRaftRequest) : ℕ :=
  numberSize n.currentTerm + numberSize (n.logs.lastLogIndex + 1) +
    bytesSize (commandSize command)

/-- The receiver takes a request of this size. Above protobuf's own limit the payload is empty. -/
def Fits (size : ℕ) : Prop := size ≤ Rpc.maxRpcMessageSize ∨ Proto3.maxSerializedSize < size

instance (size : ℕ) : Decidable (Fits size) :=
  inferInstanceAs (Decidable (size ≤ Rpc.maxRpcMessageSize ∨ Proto3.maxSerializedSize < size))

theorem length_logEntry (e : LogEntry) : (Wire.serialize e : Bytes).length = e.size := by
  change (writeFields (Proto3.logEntryFields e)).length = e.size
  simp [Proto3.logEntryFields, LogEntry.size, length_writeFields_numberField,
    length_writeFields_bytesField, Nat.add_assoc]

theorem length_putRequest (r : Kv.PutRequest) :
    (Wire.serialize r : Bytes).length = putRequestSize r := by
  change (writeFields (Proto3.putRequestFields r ++ r.unknownFields.fields)).length = _
  simp [Proto3.putRequestFields, length_writeFields_bytesField, putRequestSize,
    UnknownFields.length_writeFields, Nat.add_assoc]

/-- A request that has a key and nothing else of its own. -/
theorem length_keyFields {known : List ℕ} (key : Bytes) (unknown : UnknownFields known) :
    (writeFields (Proto3.keyFields key ++ unknown.fields)).length =
      bytesSize key.length + unknown.size := by
  simp [Proto3.keyFields, length_writeFields_bytesField, UnknownFields.length_writeFields]

theorem length_command (command : InternalRaftRequest) :
    (Wire.serialize command : Bytes).length = commandSize command := by
  change (writeFields (Proto3.internalRaftRequestFields command)).length = _
  cases command with
  | kvPut request =>
    have hput := length_putRequest request
    exact (length_writeFields_message (by decide) _).trans (congrArg messageSize hput)
  | kvGet request | kvDelete request =>
    have hkey := length_keyFields request.key request.unknownFields
    exact (length_writeFields_message (by decide) _).trans (congrArg messageSize hkey)
  | notSet => rfl

theorem length_appendEntriesRequest (r : AppendEntriesRequest) :
    (writeFields (Proto3.appendEntriesRequestFields r)).length =
      requestSize r.term r.leaderId r.prevLogIndex r.prevLogTerm r.leaderCommit
        (r.entries.map LogEntry.size) := by
  have hentries : (r.entries.map Proto3.logEntry.serialize).map (fun bs => messageSize bs.length) =
      (r.entries.map LogEntry.size).map messageSize := by
    rw [List.map_map, List.map_map]
    refine List.map_congr_left fun e _ => ?_
    exact congrArg messageSize (length_logEntry e)
  have hmessages := length_writeFields_messages (by decide : 5 < 16)
    (r.entries.map Proto3.logEntry.serialize)
  rw [hentries] at hmessages
  simp only [Proto3.appendEntriesRequestFields, writeFields_append, List.length_append, hmessages]
  simp [length_writeFields_numberField, requestSize]

theorem length_payload_le_iff (r : AppendEntriesRequest) :
    r.payload.length ≤ Rpc.maxRpcMessageSize ↔
      Fits (requestSize r.term r.leaderId r.prevLogIndex r.prevLogTerm r.leaderCommit
        (r.entries.map LogEntry.size)) := by
  rw [AppendEntriesRequest.payload, Proto3.serializeAsString, ← length_appendEntriesRequest, Fits]
  split_ifs with h
  · exact (or_iff_left (by omega)).symm
  · exact iff_of_true (Nat.zero_le _) (Or.inr (by omega))

namespace RaftNode

theorem size_entryFor (n : RaftNode) (command : InternalRaftRequest) :
    (n.entryFor command).size = n.entrySize command := by
  rw [entryFor, LogEntry.size, length_command, entrySize]

theorem buffered_entryFor_iff (n : RaftNode) (command : InternalRaftRequest) :
    Buffered (n.entryFor command) ↔ n.entrySize command ≤ Persister.bufferSize := by
  rw [Buffered, length_logEntry, size_entryFor]

end RaftNode
end Foskv.Raft
