import Foskv.Raft.MessageSize

/-! The lengths handed to `SerializeToArray` on the way of a client's request, against the buffers
they are written to: `buffer_` of the persister and `resp_payload` of a session. -/
namespace Foskv.Raft
open Generic Generic.Proto3

attribute [local instance] Proto3.protobuf Proto3.peerProtobuf

/-- `ByteSizeLong()` of a response. -/
def byteSizeLong (response : Kv.Response) : ℕ := (PeerProtobuf.kvResponse response).length

section Sizes

/-- Lengths that take four bytes themselves. -/
theorem messageSize_le_iff {b : ℕ} (hlow : 2^21 ≤ b) (hhigh : b < 2^28) (length : ℕ) :
    messageSize length ≤ b + 5 ↔ length ≤ b := by
  unfold messageSize varintSize
  constructor
  · intro h
    by_contra hlt
    have hmono : Nat.log 128 (2^21) ≤ Nat.log 128 length := Nat.log_mono_right (by omega)
    have hlog : Nat.log 128 (2^21) = 3 := by decide
    omega
  · intro h
    have hsize : varintSize length ≤ 4 := varintSize_le (by decide) (by omega)
    rw [varintSize] at hsize
    omega

def redirectSize (redirect : Rpc.Redirect) : ℕ :=
  bytesSize redirect.host.length + numberSize redirect.port

def headerSize (header : Rpc.ResponseHeader) : ℕ :=
  numberSize header.success.toNat + numberSize (Proto3.rpcErrorCode header.errorCode) +
    (header.redirect.map fun redirect => messageSize (redirectSize redirect)).getD 0

theorem length_rpcResponseHeader (header : Rpc.ResponseHeader) :
    (writeFields (Proto3.rpcResponseHeaderFields header)).length = headerSize header := by
  obtain ⟨success,errorCode,redirect⟩ := header
  cases redirect with
  | none =>
    simp [Proto3.rpcResponseHeaderFields, headerSize, length_writeFields_numberField]
  | some redirect =>
    simp [Proto3.rpcResponseHeaderFields, headerSize, redirectSize, length_writeField_bytes,
      length_writeFields_numberField, length_writeFields_bytesField, Nat.add_assoc]

theorem byteSizeLong_response (method : KvMethod) (header : Rpc.ResponseHeader) :
    byteSizeLong (method.response header) = messageSize (headerSize header) := by
  rw [← length_rpcResponseHeader]
  cases method <;> exact length_writeFields_message (by decide) _

theorem byteSizeLong_get (header : Rpc.ResponseHeader) (kv : Kv.KeyValue) :
    byteSizeLong (.get header (some kv)) = messageSize (headerSize header) +
      messageSize (bytesSize kv.key.length + bytesSize kv.value.length) := by
  have hkv : (writeFields (bytesField 1 kv.key ++ bytesField 2 kv.value)).length =
      bytesSize kv.key.length + bytesSize kv.value.length := by
    simp [length_writeFields_bytesField]
  rw [← length_rpcResponseHeader, ← hkv, ← length_writeFields_message (by decide : 1 < 16),
    ← length_writeFields_message (by decide : 2 < 16), ← List.length_append,
    ← writeFields_append]
  rfl

/-- The response to a get fits as long as the pair would fit in a put of eleven bytes less. -/
theorem byteSizeLong_get_le_iff (kv : Kv.KeyValue) :
    byteSizeLong (.get (produceRpcResponseHeader true .noError none) (some kv)) ≤
        Rpc.maxRpcMessageSize ↔
      bytesSize kv.key.length + bytesSize kv.value.length ≤ Rpc.maxRpcMessageSize - 11 := by
  have hheader : messageSize (headerSize (produceRpcResponseHeader true .noError none)) = 6 := by
    decide
  have hsize := messageSize_le_iff (by decide : 2^21 ≤ 4194293) (by decide)
    (bytesSize kv.key.length + bytesSize kv.value.length)
  have hmax : Rpc.maxRpcMessageSize = 4194304 := rfl
  rw [byteSizeLong_get, hheader, hmax]
  omega

/-- A response without redirect and pair takes at most six bytes. -/
theorem byteSizeLong_short (method : KvMethod) (success : Bool) (errorCode : Rpc.RpcError) :
    byteSizeLong (method.response (produceRpcResponseHeader success errorCode none)) ≤ 6 := by
  rw [byteSizeLong_response]
  cases success <;> cases errorCode <;> decide

/-- The vote record of 64-bit numbers always fits. -/
theorem length_persistState_le (state : PersistState) (hterm : state.currentTerm < 2^64)
    (hvoted : ∀ m ∈ state.votedFor, m < 2^64) :
    (Wire.serialize state : Bytes).length ≤ Persister.bufferSize := by
  have hnumber : ∀ n < 2^64, varintSize n ≤ 10 := fun n hn => varintSize_le (by decide) (by omega)
  obtain ⟨term,votedFor⟩ := state
  have hvotedSize :
      (writeFields (votedFor.map fun m => (2,FieldValue.varint m)).toList).length ≤ 11 := by
    cases votedFor with
    | none => exact Nat.zero_le _
    | some m =>
      have hm := hnumber m (hvoted m rfl)
      have hsize := length_writeField_varint (by decide : 2 < 16) m
      simp only [Option.map_some, Option.toList_some, writeFields, List.map_cons, List.map_nil,
        List.flatten_cons, List.flatten_nil, List.append_nil, hsize]
      omega
  have htermSize := length_writeFields_numberField (by decide : 1 < 16) term
  rw [numberSize] at htermSize
  change (writeFields (numberField 1 term ++
    (votedFor.map fun m => (2,FieldValue.varint m)).toList)).length ≤ 128
  rw [writeFields_append, List.length_append, htermSize]
  have hsize := hnumber term hterm
  split_ifs <;> omega

end Sizes

namespace RaftNode

section Handlers
variable {cfg : RaftConfig} {n n' : RaftNode} {io : DiskOutcome} {method : KvMethod}
  {reqPayload : Bytes} {sessionId requestId : ℕ} {events : List Event} {st : Storage}

/-- The response of a command fits unless it carries a pair that is too long. -/
theorem execute_fits_iff (st : Storage) (command : InternalRaftRequest) :
    (∀ response ∈ (StateMachine.execute st command).2,
        byteSizeLong response ≤ Rpc.maxRpcMessageSize) ↔
      ∀ request value, command = .kvGet request → st.get request.key = some value →
        bytesSize request.key.length + bytesSize value.length ≤ Rpc.maxRpcMessageSize - 11 := by
  have hshort : ∀ method success errorCode, byteSizeLong (KvMethod.response method
      (produceRpcResponseHeader success errorCode none)) ≤ Rpc.maxRpcMessageSize :=
    fun method success errorCode => (byteSizeLong_short method success errorCode).trans (by decide)
  cases command with
  | kvPut request =>
    have hput := hshort .put true .noError
    simpa [StateMachine.execute, applyKvPut, KvMethod.response] using hput
  | kvGet request =>
    simp only [StateMachine.execute, applyKvGet]
    cases hget : st.get request.key with
    | none =>
      simp only [Option.mem_some_iff, forall_eq']
      refine iff_of_true (hshort .get false .kvGetFailed) fun request' value heq hvalue => ?_
      cases heq
      rw [hget] at hvalue
      cases hvalue
    | some value =>
      simp only [Option.mem_some_iff, forall_eq', byteSizeLong_get_le_iff]
      constructor
      · intro h request' value' heq hvalue
        cases heq
        cases hget.symm.trans hvalue
        exact h
      · intro h
        exact h request value rfl hget
  | kvDelete request =>
    have hdelete := hshort .delete true .noError
    simpa [StateMachine.execute, applyKvDelete, KvMethod.response] using hdelete
  | notSet => simp [StateMachine.execute]

/-- What a put has stored can be read as long as its own fields are eleven bytes below the limit. -/
theorem get_after_put_fits_iff (st : Storage) (put : Kv.PutRequest) {get : Kv.GetRequest}
    (hkey : get.key = put.key) :
    (∀ response ∈ (StateMachine.execute (StateMachine.execute st (.kvPut put)).1 (.kvGet get)).2,
        byteSizeLong response ≤ Rpc.maxRpcMessageSize) ↔
      bytesSize put.key.length + bytesSize put.value.length ≤ Rpc.maxRpcMessageSize - 11 := by
  have hget : (StateMachine.execute st (.kvPut put)).1.get get.key = some put.value := by
    rw [hkey]
    exact Storage.get_put_self st put.key put.value
  rw [execute_fits_iff, ← hkey]
  constructor
  · intro h
    exact h get put.value rfl hget
  · intro h request value heq hvalue
    cases heq
    cases hget.symm.trans hvalue
    exact h

end Handlers

section Trio
open Cluster

end Trio
end RaftNode
end Foskv.Raft
