import Foskv.Generic.Proto3
import Foskv.Rpc.Protobuf

/-! The wire encoding of the stored and received messages: one concrete runtime. -/
namespace Foskv

open Generic.Proto3

namespace Proto3

theorem canonical_numberField {k n : ℕ} (hk : IsNumber k) :
    ∀ field ∈ numberField k n, Canonical false field := by
  intro field hfield
  unfold numberField at hfield
  split_ifs at hfield
  · cases hfield
  · obtain rfl := List.mem_singleton.mp hfield
    exact .varint hk nofun

theorem canonical_bytesField {limited : Bool} {k : ℕ} {bs : Bytes} (hk : IsNumber k) :
    ∀ field ∈ bytesField k bs, Canonical limited field := by
  intro field hfield
  unfold bytesField at hfield
  split_ifs at hfield
  · cases hfield
  · obtain rfl := List.mem_singleton.mp hfield
    exact .bytes hk

theorem isString_bytesField {known : List ℕ} {k : ℕ} {bs : Bytes} (hk : k ∈ known) :
    ∀ field ∈ bytesField k bs, IsString known field = true := by
  intro field hfield
  unfold bytesField at hfield
  split_ifs at hfield
  · cases hfield
  · obtain rfl := List.mem_singleton.mp hfield
    exact decide_eq_true hk

/-- A message type given by its fields and their reading. -/
@[reducible] def wireOfFields {α : Type} (limited : Bool) (toFields : α → List Field)
    (ofFields : List Field → Option α)
    (hcanonical : ∀ a, ∀ field ∈ toFields a, Canonical limited field)
    (h : ∀ a, ofFields (toFields a) = some a) : Wire α where
  serialize a := writeFields (toFields a)
  parse bs := (readFields limited bs).bind ofFields
  parse_serialize a := by rw [readFields_writeFields (hcanonical a), Option.bind_some, h]

/-- A message type whose own fields are strings, with the unknown fields behind them. -/
@[reducible] def wireOfStrings {α : Type} {known : List ℕ} (own : α → List Field)
    (unknown : α → UnknownFields known) (make : List Field → UnknownFields known → α)
    (hstring : ∀ a, ∀ field ∈ own a, IsString known field = true)
    (hcanonical : ∀ a, ∀ field ∈ own a, Canonical true field)
    (h : ∀ a, make (own a ++ (unknown a).fields) (unknown a) = a) : Wire α where
  serialize a := writeFields (own a ++ (unknown a).fields)
  parse bs := (readFields true bs).pmap (fun fields hfields => make fields (.of fields hfields))
    fun _ hread => readFields_canonical hread
  parse_serialize a := by
    have hfields : ∀ field ∈ own a ++ (unknown a).fields, Canonical true field :=
      List.forall_mem_append.mpr ⟨hcanonical a,(unknown a).canonical⟩
    refine Option.pmap_eq_some_iff.mpr ⟨_,hfields,readFields_writeFields hfields,?_⟩
    rw [(unknown a).of_append (hstring a), h]

def putRequestFields (r : Kv.PutRequest) : List Field := bytesField 1 r.key ++ bytesField 2 r.value

def putRequestOf (fields : List Field) (unknown : UnknownFields [1,2]) : Kv.PutRequest :=
  ⟨string 1 fields,string 2 fields,unknown⟩

/-- `GetRequest` and `DeleteRequest` have the one field `key`. -/
def keyFields (key : Bytes) : List Field := bytesField 1 key

def logEntryFields (e : Raft.LogEntry) : List Field :=
  numberField 1 e.term ++ numberField 2 e.index ++ bytesField 3 e.command

def logEntryOf (fields : List Field) : Option Raft.LogEntry :=
  some ⟨number 1 fields,number 2 fields,string 3 fields⟩

def persistStateFields (s : Raft.PersistState) : List Field :=
  numberField 1 s.currentTerm ++ (s.votedFor.map fun m => (2,FieldValue.varint m)).toList

/-- The optional field is present as soon as it is written. -/
def persistStateOf (fields : List Field) : Option Raft.PersistState :=
  some ⟨number 1 fields,
    if fields.any (fun field => field.1 = 2) then some (number 2 fields) else none⟩

theorem string_keyFields (key : Bytes) : string 1 (keyFields key) = key := by
  by_cases hk : key = [] <;> simp [keyFields, bytesField, string, hk]

@[reducible] def putRequest : Wire Kv.PutRequest :=
  wireOfStrings putRequestFields Kv.PutRequest.unknownFields putRequestOf
    (fun _ => List.forall_mem_append.mpr
      ⟨isString_bytesField (by decide),isString_bytesField (by decide)⟩)
    (fun _ => List.forall_mem_append.mpr
      ⟨canonical_bytesField (by decide),canonical_bytesField (by decide)⟩)
    fun ⟨key,value,unknown⟩ => by
      rw [putRequestOf, unknown.string_append (by decide), unknown.string_append (by decide)]
      by_cases hk : key = [] <;> by_cases hv : value = [] <;>
        simp [putRequestFields, bytesField, string, hk, hv]

@[reducible] def getRequest : Wire Kv.GetRequest :=
  wireOfStrings (fun r => keyFields r.key) Kv.GetRequest.unknownFields
    (fun fields unknown => ⟨string 1 fields,unknown⟩)
    (fun _ => isString_bytesField (by decide)) (fun _ => canonical_bytesField (by decide))
    fun ⟨key,unknown⟩ => by rw [unknown.string_append (by decide), string_keyFields]

@[reducible] def deleteRequest : Wire Kv.DeleteRequest :=
  wireOfStrings (fun r => keyFields r.key) Kv.DeleteRequest.unknownFields
    (fun fields unknown => ⟨string 1 fields,unknown⟩)
    (fun _ => isString_bytesField (by decide)) (fun _ => canonical_bytesField (by decide))
    fun ⟨key,unknown⟩ => by rw [unknown.string_append (by decide), string_keyFields]

theorem canonical_logEntryFields (e : Raft.LogEntry) :
    ∀ field ∈ logEntryFields e, Canonical false field :=
  List.forall_mem_append.mpr ⟨List.forall_mem_append.mpr
    ⟨canonical_numberField (by decide),canonical_numberField (by decide)⟩,
    canonical_bytesField (by decide)⟩

@[reducible] def logEntry : Wire Raft.LogEntry :=
  wireOfFields false logEntryFields logEntryOf canonical_logEntryFields
    fun ⟨term,index,command⟩ => by
      by_cases ht : term = 0 <;> by_cases hi : index = 0 <;> by_cases hc : command = [] <;>
        simp [logEntryFields, logEntryOf, numberField, bytesField, number, string, ht, hi, hc]

theorem canonical_persistStateFields (s : Raft.PersistState) :
    ∀ field ∈ persistStateFields s, Canonical false field := by
  refine List.forall_mem_append.mpr ⟨canonical_numberField (by decide),fun field hfield => ?_⟩
  obtain ⟨m,-,rfl⟩ := Option.map_eq_some_iff.mp (Option.mem_toList.mp hfield)
  exact .varint (by decide) nofun

@[reducible] def persistState : Wire Raft.PersistState :=
  wireOfFields false persistStateFields persistStateOf canonical_persistStateFields
    fun ⟨term,votedFor⟩ => by
      by_cases ht : term = 0 <;> cases votedFor <;>
        simp [persistStateFields, persistStateOf, numberField, number, ht]

def internalRaftRequestFields : Raft.InternalRaftRequest → List Field
  | .kvPut r => [(1,.bytes (putRequest.serialize r))]
  | .kvGet r => [(2,.bytes (getRequest.serialize r))]
  | .kvDelete r => [(3,.bytes (deleteRequest.serialize r))]
  | .notSet => []

/-- The last member of the `oneof` that is written is the one that is set; written again, it is
merged with what was there. -/
def internalRaftRequestOf (fields : List Field) : Option Raft.InternalRaftRequest :=
  fields.foldlM (fun old field =>
    match old,field with
    | .kvPut r,(1,.bytes bs) => (putRequest.parse (putRequest.serialize r ++ bs)).map .kvPut
    | _,(1,.bytes bs) => (putRequest.parse bs).map .kvPut
    | .kvGet r,(2,.bytes bs) => (getRequest.parse (getRequest.serialize r ++ bs)).map .kvGet
    | _,(2,.bytes bs) => (getRequest.parse bs).map .kvGet
    | .kvDelete r,(3,.bytes bs) =>
      (deleteRequest.parse (deleteRequest.serialize r ++ bs)).map .kvDelete
    | _,(3,.bytes bs) => (deleteRequest.parse bs).map .kvDelete
    | _,_ => some old) .notSet

theorem canonical_internalRaftRequestFields (r : Raft.InternalRaftRequest) :
    ∀ field ∈ internalRaftRequestFields r, Canonical true field := by
  cases r with
  | notSet => simp [internalRaftRequestFields]
  | kvPut r | kvGet r | kvDelete r =>
    exact List.forall_mem_singleton.mpr (.bytes (by decide))

@[reducible] def internalRaftRequest : Wire Raft.InternalRaftRequest :=
  wireOfFields true internalRaftRequestFields internalRaftRequestOf
    canonical_internalRaftRequestFields fun r => by
      cases r <;> simp [internalRaftRequestFields, internalRaftRequestOf, Wire.parse_serialize]

@[reducible] def protobuf : Protobuf where
  putRequest := putRequest
  getRequest := getRequest
  deleteRequest := deleteRequest
  internalRaftRequest := internalRaftRequest
  logEntry := logEntry
  persistState := persistState

/-- The largest size protobuf serialises. -/
def maxSerializedSize : ℕ := 2^31 - 1

/-- `SerializeAsString`: a larger message gives the empty string. -/
def serializeAsString (fields : List Field) : Bytes :=
  if (writeFields fields).length ≤ maxSerializedSize then writeFields fields else []

/-- Each entry is a field of its own, also an empty one. -/
def appendEntriesRequestFields (r : Raft.AppendEntriesRequest) : List Field :=
  numberField 1 r.term ++ numberField 2 r.leaderId ++ numberField 3 r.prevLogIndex ++
    numberField 4 r.prevLogTerm ++
    (r.entries.map logEntry.serialize).map (fun bs => (5,FieldValue.bytes bs)) ++
    numberField 6 r.leaderCommit

def appendEntriesRequestOf (fields : List Field) : Option Raft.AppendEntriesRequest := do
  let entries ← (fields.filterMap fun
    | (5,.bytes bs) => some bs
    | _ => none).mapM logEntry.parse
  return ⟨number 1 fields,number 2 fields,number 3 fields,number 4 fields,entries,
    number 6 fields⟩

def responseHeaderFields (h : Raft.ResponseHeader) : List Field :=
  numberField 1 h.clusterId ++ numberField 2 h.memberId ++ numberField 3 h.term

/-- The header of every response is set. -/
def headerField (h : Raft.ResponseHeader) : Field :=
  (1,.bytes (writeFields (responseHeaderFields h)))

def rpcErrorCode : Rpc.RpcError → ℕ
  | .unknown => 0
  | .noError => 1
  | .logEntryAppendOrPersistFailed => 2
  | .needRedirect => 3
  | .kvPutFailed => 4
  | .kvGetFailed => 5
  | .kvDeleteFailed => 6
  | .kvPutRequestParseFailed => 7
  | .kvGetRequestParseFailed => 8
  | .kvDeleteRequestParseFailed => 9

def rpcResponseHeaderFields (h : Rpc.ResponseHeader) : List Field :=
  numberField 1 h.success.toNat ++ numberField 2 (rpcErrorCode h.errorCode) ++
    (h.redirect.map fun r =>
      (3,FieldValue.bytes (writeFields (bytesField 1 r.host ++ numberField 2 r.port)))).toList

def kvResponseFields : Kv.Response → List Field
  | .put header | .delete header => [(1,.bytes (writeFields (rpcResponseHeaderFields header)))]
  | .get header kv => (1,.bytes (writeFields (rpcResponseHeaderFields header))) ::
    (kv.map fun kv =>
      (2,FieldValue.bytes (writeFields (bytesField 1 kv.key ++ bytesField 2 kv.value)))).toList

@[reducible] def peerProtobuf : PeerProtobuf where
  parseRequestVoteRequest bs := (readFields false bs).map fun fields =>
    ⟨number 1 fields,number 2 fields,number 3 fields,number 4 fields⟩
  parseAppendEntriesRequest bs := (readFields false bs).bind appendEntriesRequestOf
  parseInstallSnapshotRequest bs := (readFields false bs).map fun fields =>
    ⟨number 1 fields,number 2 fields,number 3 fields,number 4 fields,number 5 fields,
      string 6 fields,number 7 fields ≠ 0⟩
  requestVoteResponse r :=
    writeFields (headerField r.header :: numberField 2 r.voteGranted.toNat)
  appendEntriesResponse r := writeFields (headerField r.header :: (numberField 2 r.success.toNat ++
    numberField 3 r.lastLogIndex ++ numberField 4 r.conflictIndex))
  installSnapshotResponse r := writeFields [headerField r.header]
  kvResponse r := writeFields (kvResponseFields r)

end Proto3
end Foskv
