import Foskv.Generic.Frames
import Foskv.Rpc.Messages
import Mathlib.Data.List.GetD

/-! The RPC wire protocol: requests as `RpcConsumer::call` writes and
`RpcProvider::produce_invoke_tasks` reads them, responses as `consume_invoke_tasks` writes and
`RpcConsumer::consume_callbacks` reads them. -/
namespace Foskv.Rpc

open Generic.Frames

/-- `MAX_RPC_MESSAGE_SIZE`. -/
def maxRpcMessageSize : ℕ := 4 * 1024 * 1024

/-- The enumerations are `uint8_t`: a frame may carry any byte. -/
abbrev ServiceType := UInt8

abbrev MethodType := UInt8

namespace ServiceType
def kRaft : ServiceType := 0
def kKv : ServiceType := 1
end ServiceType

namespace MethodType
def kRaftRequestVote : MethodType := 0
def kRaftAppendEntries : MethodType := 1
def kRaftInstallSnapshot : MethodType := 2
def kKvPut : MethodType := 3
def kKvGet : MethodType := 4
def kKvDelete : MethodType := 5
end MethodType

def htobe64 (n : UInt64) : Bytes := bigEndian 8 n.toNat

def be64toh (bs : Bytes) : UInt64 := UInt64.ofNat (ofBigEndian bs)

def htobe32 (n : UInt32) : Bytes := bigEndian 4 n.toNat

def be32toh (bs : Bytes) : UInt32 := UInt32.ofNat (ofBigEndian bs)

@[simp] theorem length_htobe64 (n : UInt64) : (htobe64 n).length = 8 := length_bigEndian 8 _

@[simp] theorem length_htobe32 (n : UInt32) : (htobe32 n).length = 4 := length_bigEndian 4 _

@[simp] theorem be64toh_htobe64 (n : UInt64) : be64toh (htobe64 n) = n := by
  have h : n.toNat < 256^8 := n.toNat_lt
  rw [be64toh, htobe64, ofBigEndian_bigEndian, Nat.mod_eq_of_lt h, UInt64.ofNat_toNat]

@[simp] theorem be32toh_htobe32 (n : UInt32) : be32toh (htobe32 n) = n := by
  have h : n.toNat < 256^4 := n.toNat_lt
  rw [be32toh, htobe32, ofBigEndian_bigEndian, Nat.mod_eq_of_lt h, UInt32.ofNat_toNat]

/-- The packed request header, 14 bytes. -/
structure FixedRequestHeader where
  requestId : UInt64
  serviceType : ServiceType
  methodType : MethodType
  payloadSize : UInt32
  deriving DecidableEq, Repr

/-- The packed response header, 12 bytes. -/
structure FixedResponseHeader where
  requestId : UInt64
  payloadSize : UInt32
  deriving DecidableEq, Repr

def FixedRequestHeader.bytes (h : FixedRequestHeader) : Bytes :=
  htobe64 h.requestId ++ ([h.serviceType,h.methodType] ++ htobe32 h.payloadSize)

def FixedRequestHeader.ofBytes (bs : Bytes) : FixedRequestHeader where
  requestId := be64toh (bs.take 8)
  serviceType := bs.getD 8 0
  methodType := bs.getD 9 0
  payloadSize := be32toh (bs.drop 10)

def FixedResponseHeader.bytes (h : FixedResponseHeader) : Bytes :=
  htobe64 h.requestId ++ htobe32 h.payloadSize

def FixedResponseHeader.ofBytes (bs : Bytes) : FixedResponseHeader where
  requestId := be64toh (bs.take 8)
  payloadSize := be32toh (bs.drop 8)

theorem FixedRequestHeader.ofBytes_bytes (h : FixedRequestHeader) : ofBytes h.bytes = h := by
  have hdrop : (htobe64 h.requestId).drop 10 = [] := List.drop_eq_nil_of_le (by simp)
  simp [ofBytes, bytes, List.drop_append, hdrop]

theorem FixedResponseHeader.ofBytes_bytes (h : FixedResponseHeader) : ofBytes h.bytes = h := by
  simp [ofBytes, bytes]

def requestFormat : HeaderFormat FixedRequestHeader where
  size := 14
  write := FixedRequestHeader.bytes
  read := FixedRequestHeader.ofBytes
  payloadSize h := h.payloadSize.toNat
  length_write h := by simp [FixedRequestHeader.bytes]
  read_write := FixedRequestHeader.ofBytes_bytes
  size_pos := by decide

/-- A request as it travels: its header and its payload. -/
abbrev RequestFrame := FixedRequestHeader × Bytes

abbrev ResponseFrame := FixedResponseHeader × Bytes

section Consumer

/-- The arguments of one `call`, apart from its callback. -/
structure Call where
  serviceType : ServiceType
  methodType : MethodType
  reqPayload : Bytes
  deriving DecidableEq, Repr

/-- What `call` hands to `write_vectored` under a request id. -/
def Call.frame (c : Call) (requestId : UInt64) : RequestFrame :=
  (⟨requestId,c.serviceType,c.methodType,UInt32.ofNat c.reqPayload.length⟩,c.reqPayload)

/-- The frames of the calls on a fresh connection: ids count from 0. -/
def requests (calls : List Call) : List RequestFrame :=
  calls.mapIdx fun k c => c.frame (UInt64.ofNat k)

end Consumer

section Provider
variable {ι : Type}

/-- The two-level map from service and method to the registered function. -/
abbrev InvokeMap (ι : Type) := ServiceType → Option (MethodType → Option ι)

/-- `register_invoke`: `operator[]` creates a missing service. -/
def InvokeMap.registerInvoke (invokes : InvokeMap ι) (serviceType : ServiceType)
    (methodType : MethodType) (invoke : ι) : InvokeMap ι :=
  Function.update invokes serviceType
    (some (Function.update ((invokes serviceType).getD fun _ => none) methodType (some invoke)))

structure InvokeTask (ι : Type) where
  requestId : UInt64
  reqPayload : Bytes
  invoke : ι
  deriving DecidableEq, Repr

/-- The task of a request, unless its service or its method is unknown. -/
def invokeTask (invokes : InvokeMap ι) (frame : RequestFrame) : Option (InvokeTask ι) :=
  match invokes frame.1.serviceType with
  | none => none
  | some service =>
    match service frame.1.methodType with
    | none => none
    | some invoke => some ⟨frame.1.requestId,frame.2,invoke⟩

/-- The first half of a round of `produce_invoke_tasks`. -/
def readRequest : Bytes → Except (Stop FixedRequestHeader) (RequestFrame × Bytes) :=
  requestFormat.readFrame maxRpcMessageSize

/-- The frame `consume_invoke_tasks` writes for the result of a task: none on an error, an
empty payload or a too large one. -/
def respond (requestId : UInt64) : Result Bytes → Option ResponseFrame
  | .error _ => none
  | .ok respPayload =>
    if respPayload.length = 0 ∨ maxRpcMessageSize < respPayload.length then none
    else some (⟨requestId,UInt32.ofNat respPayload.length⟩,respPayload)

end Provider

theorem InvokeMap.invokeTask_registerInvoke {ι : Type} (invokes : InvokeMap ι)
    (serviceType : ServiceType) (methodType : MethodType) (invoke : ι) (frame : RequestFrame) :
    invokeTask (invokes.registerInvoke serviceType methodType invoke) frame =
      if frame.1.serviceType = serviceType ∧ frame.1.methodType = methodType then
        some ⟨frame.1.requestId,frame.2,invoke⟩
      else invokeTask invokes frame := by
  by_cases hs : frame.1.serviceType = serviceType
  · by_cases hm : frame.1.methodType = methodType
    · simp [invokeTask, registerInvoke, hs, hm]
    · cases h : invokes serviceType <;> simp [invokeTask, registerInvoke, hs, hm, h]
  · simp [invokeTask, registerInvoke, hs]

section RoundTrip

theorem respond_ok {requestId : UInt64} {respPayload : Bytes} (hne : respPayload ≠ [])
    (hle : respPayload.length ≤ maxRpcMessageSize) : respond requestId (.ok respPayload) =
      some (⟨requestId,UInt32.ofNat respPayload.length⟩,respPayload) := by
  have hpos := List.length_pos_iff.mpr hne
  exact if_neg (by omega)

end RoundTrip

end Foskv.Rpc
