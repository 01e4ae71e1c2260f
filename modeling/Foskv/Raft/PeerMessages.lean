import Foskv.Raft.Sessions

/-! The messages between members as the bytes they travel as: a request is what its sender has
serialised, a response what its receiver parses, and a registered function does to the bytes of a
request what the node does to the request. -/
namespace Foskv
open Generic.Proto3

/-- The messages between members in both directions, each read back as it was written. -/
class PeerWire extends PeerProtobuf where
  requestVoteRequest : Raft.RequestVoteRequest → Bytes
  appendEntriesRequest : Raft.AppendEntriesRequest → Bytes
  parseRequestVoteResponse : Bytes → Option Raft.RequestVoteResponse
  parseAppendEntriesResponse : Bytes → Option Raft.AppendEntriesResponse
  parse_requestVoteRequest : ∀ r, parseRequestVoteRequest (requestVoteRequest r) = some r
  parse_appendEntriesRequest : ∀ r, parseAppendEntriesRequest (appendEntriesRequest r) = some r
  parse_requestVoteResponse : ∀ r, parseRequestVoteResponse (requestVoteResponse r) = some r
  parse_appendEntriesResponse : ∀ r,
    parseAppendEntriesResponse (appendEntriesResponse r) = some r

namespace Proto3

def requestVoteRequestFields (r : Raft.RequestVoteRequest) : List Field :=
  numberField 1 r.term ++ numberField 2 r.candidateId ++ numberField 3 r.lastLogIndex ++
    numberField 4 r.lastLogTerm

/-- An absent header is one without fields. -/
def responseHeaderOf (fields : List Field) : Option Raft.ResponseHeader :=
  (readFields false (string 1 fields)).map fun header =>
    ⟨number 1 header,number 2 header,number 3 header⟩

def requestVoteResponseOf (fields : List Field) : Option Raft.RequestVoteResponse :=
  (responseHeaderOf fields).map fun header => ⟨header,number 2 fields ≠ 0⟩

def appendEntriesResponseOf (fields : List Field) : Option Raft.AppendEntriesResponse :=
  (responseHeaderOf fields).map fun header =>
    ⟨header,number 2 fields ≠ 0,number 3 fields,number 4 fields⟩

section RoundTrips

theorem canonical_requestVoteRequestFields (r : Raft.RequestVoteRequest) :
    ∀ field ∈ requestVoteRequestFields r, Canonical false field := by
  simp only [requestVoteRequestFields, List.forall_mem_append]
  exact ⟨⟨⟨canonical_numberField (by decide),canonical_numberField (by decide)⟩,
    canonical_numberField (by decide)⟩,canonical_numberField (by decide)⟩

theorem canonical_appendEntriesRequestFields (r : Raft.AppendEntriesRequest) :
    ∀ field ∈ appendEntriesRequestFields r, Canonical false field := by
  have hentries : ∀ field ∈ (r.entries.map logEntry.serialize).map
      (fun bs => (5,FieldValue.bytes bs)), Canonical false field := by
    intro field hfield
    obtain ⟨bs,-,rfl⟩ := List.mem_map.mp hfield
    exact .bytes (by decide)
  simp only [appendEntriesRequestFields, List.forall_mem_append]
  exact ⟨⟨⟨⟨⟨canonical_numberField (by decide),canonical_numberField (by decide)⟩,
    canonical_numberField (by decide)⟩,canonical_numberField (by decide)⟩,hentries⟩,
    canonical_numberField (by decide)⟩

theorem canonical_responseHeaderFields (header : Raft.ResponseHeader) :
    ∀ field ∈ responseHeaderFields header, Canonical false field := by
  simp only [responseHeaderFields, List.forall_mem_append]
  exact ⟨⟨canonical_numberField (by decide),canonical_numberField (by decide)⟩,
    canonical_numberField (by decide)⟩

/-- A response is its header and fields that can be read. -/
theorem canonical_response (header : Raft.ResponseHeader) {fields : List Field}
    (h : ∀ field ∈ fields, Canonical false field) :
    ∀ field ∈ headerField header :: fields, Canonical false field :=
  List.forall_mem_cons.mpr ⟨.bytes (by decide),h⟩

theorem requestVoteRequest_fields (r : Raft.RequestVoteRequest) :
    peerProtobuf.parseRequestVoteRequest (writeFields (requestVoteRequestFields r)) = some r := by
  change (readFields false _).map _ = _
  rw [readFields_writeFields (canonical_requestVoteRequestFields r), requestVoteRequestFields]
  simp only [Option.map_some, number_append_self, number_append_numberField,
    number_numberField_self, number_numberField, ne_eq, Nat.reduceEqDiff,
    not_false_eq_true]

theorem parse_entries (entries : List Raft.LogEntry) :
    (entries.map logEntry.serialize).mapM logEntry.parse = some entries := by
  induction entries with
  | nil => rfl
  | cons entry entries ih =>
    rw [List.map_cons, List.mapM_cons, ih, logEntry.parse_serialize]
    rfl

theorem appendEntriesRequestOf_eq (fields : List Field) : appendEntriesRequestOf fields =
    ((messages 5 fields).mapM logEntry.parse).map fun entries =>
      ⟨number 1 fields,number 2 fields,number 3 fields,number 4 fields,entries,
        number 6 fields⟩ := by
  unfold appendEntriesRequestOf
  rw [Option.map_eq_bind, messages]
  congr 3
  funext field
  obtain ⟨j,value⟩ := field
  cases value with
  | varint n | fixed64 bs | group bs | fixed32 bs => simp
  | bytes bs =>
    by_cases hj : j = 5
    · subst hj
      rfl
    · simp [hj]

theorem appendEntriesRequestOf_fields (r : Raft.AppendEntriesRequest) :
    appendEntriesRequestOf (appendEntriesRequestFields r) = some r := by
  rw [appendEntriesRequestOf_eq, appendEntriesRequestFields]
  simp only [messages_append, messages_numberField, messages_map, List.nil_append,
    List.append_nil, parse_entries, Option.map_some, number_append_self,
    number_append_numberField, number_append_messages, number_numberField_self,
    number_numberField, ne_eq, Nat.reduceEqDiff, not_false_eq_true]

/-- The fields after the header do not change it. -/
theorem responseHeaderOf_fields (header : Raft.ResponseHeader) {fields : List Field}
    (h : string 1 fields = writeFields (responseHeaderFields header)) :
    responseHeaderOf fields = some header := by
  rw [responseHeaderOf, h, readFields_writeFields (canonical_responseHeaderFields header),
    responseHeaderFields]
  simp only [Option.map_some, number_append_self, number_append_numberField,
    number_numberField_self, number_numberField, ne_eq, Nat.reduceEqDiff, not_false_eq_true]

theorem string_headerField (header : Raft.ResponseHeader) :
    string 1 [headerField header] = writeFields (responseHeaderFields header) := rfl

theorem number_headerField (k : ℕ) (header : Raft.ResponseHeader) :
    number k [headerField header] = 0 := rfl

theorem requestVoteResponseOf_fields (r : Raft.RequestVoteResponse) :
    requestVoteResponseOf ([headerField r.header] ++ numberField 2 r.voteGranted.toNat) =
      some r := by
  rw [requestVoteResponseOf, responseHeaderOf_fields r.header,
    number_append_self (number_headerField 2 r.header)]
  · obtain ⟨header,voteGranted⟩ := r
    cases voteGranted <;> rfl
  · rw [string_append_numberField, string_headerField]

theorem appendEntriesResponseOf_fields (r : Raft.AppendEntriesResponse) :
    appendEntriesResponseOf ([headerField r.header] ++ numberField 2 r.success.toNat ++
      numberField 3 r.lastLogIndex ++ numberField 4 r.conflictIndex) = some r := by
  rw [appendEntriesResponseOf, responseHeaderOf_fields r.header]
  · simp only [Option.map_some, number_append_self, number_append_numberField, number_headerField,
      ne_eq, Nat.reduceEqDiff, not_false_eq_true]
    obtain ⟨header,success,lastLogIndex,conflictIndex⟩ := r
    cases success <;> rfl
  · simp only [string_append_numberField, string_headerField]

end RoundTrips

@[reducible] def peerWire : PeerWire where
  toPeerProtobuf := peerProtobuf
  requestVoteRequest r := writeFields (requestVoteRequestFields r)
  appendEntriesRequest r := writeFields (appendEntriesRequestFields r)
  parseRequestVoteResponse bs := (readFields false bs).bind requestVoteResponseOf
  parseAppendEntriesResponse bs := (readFields false bs).bind appendEntriesResponseOf
  parse_requestVoteRequest := requestVoteRequest_fields
  parse_appendEntriesRequest r := by
    change (readFields false _).bind _ = _
    rw [readFields_writeFields (canonical_appendEntriesRequestFields r)]
    exact appendEntriesRequestOf_fields r
  parse_requestVoteResponse r := by
    change (readFields false (writeFields _)).bind _ = _
    rw [readFields_writeFields (canonical_response r.header (canonical_numberField (by decide)))]
    exact requestVoteResponseOf_fields r
  parse_appendEntriesResponse r := by
    have hfields : ∀ field ∈ numberField 2 r.success.toNat ++ numberField 3 r.lastLogIndex ++
        numberField 4 r.conflictIndex, Canonical false field := by
      simp only [List.forall_mem_append]
      exact ⟨⟨canonical_numberField (by decide),canonical_numberField (by decide)⟩,
        canonical_numberField (by decide)⟩
    change (readFields false (writeFields _)).bind _ = _
    rw [readFields_writeFields (canonical_response r.header hfields)]
    exact appendEntriesResponseOf_fields r

end Proto3

namespace Raft

section Bodies
variable [PeerWire]

/-- The serialised message, whatever its size. -/
def Body.bytes : Body → Bytes
  | .requestVote request => PeerWire.requestVoteRequest request
  | .appendEntries _ request => PeerWire.appendEntriesRequest request
  | .requestVoteReply response => PeerProtobuf.requestVoteResponse response
  | .appendEntriesReply _ response => PeerProtobuf.appendEntriesResponse response

/-- `SerializeAsString` of a request: nothing above protobuf's limit. -/
def Body.payload (b : Body) : Bytes :=
  if b.bytes.length ≤ Proto3.maxSerializedSize then b.bytes else []

omit [PeerWire] in
def Body.method : Body → Rpc.MethodType
  | .requestVote _ | .requestVoteReply _ => .kRaftRequestVote
  | .appendEntries .. | .appendEntriesReply .. => .kRaftAppendEntries

/-- What `Peer::request_vote` and `Peer::append_entries` call. -/
def Body.call (b : Body) : Rpc.Call := ⟨.kRaft,b.method,b.payload⟩

/-- What the callback of a request reads from a response. -/
def Body.readReply : Body → Bytes → Option Body
  | .requestVote _,respPayload =>
    (PeerWire.parseRequestVoteResponse respPayload).map .requestVoteReply
  | .appendEntries callback _,respPayload =>
    (PeerWire.parseAppendEntriesResponse respPayload).map (.appendEntriesReply callback)
  | _,_ => none

omit [PeerWire] in
/-- A reply, for the callback that came with the request. -/
inductive Body.Replies : Body → Body → Prop
  | requestVote {request response} : Replies (.requestVote request) (.requestVoteReply response)
  | appendEntries {callback request response} :
      Replies (.appendEntries callback request) (.appendEntriesReply callback response)

theorem Body.Replies.readReply {b reply : Body} (h : b.Replies reply) :
    b.readReply reply.bytes = some reply := by
  cases h with
  | requestVote =>
    rw [Body.readReply, Body.bytes, PeerWire.parse_requestVoteResponse]
    rfl
  | appendEntries =>
    rw [Body.readReply, Body.bytes, PeerWire.parse_appendEntriesResponse]
    rfl

omit [PeerWire] in
theorem Body.Replies.isReply {b reply : Body} (h : b.Replies reply) : reply.isReply = true := by
  cases h <;> rfl

/-- A request that protobuf serialises. -/
structure Body.Sendable (b : Body) : Prop where
  request : b.isReply = false
  size : b.bytes.length ≤ Proto3.maxSerializedSize

omit [PeerWire] in
/-- The function that is registered for a request. -/
def Body.handler : Body → Handler
  | .requestVote _ | .requestVoteReply _ => .requestVote
  | .appendEntries .. | .appendEntriesReply .. => .appendEntries

theorem Body.invokeTask_call (b : Body) (requestId : UInt64) :
    Rpc.invokeTask invokes (b.call.frame requestId) =
      some ⟨requestId,b.payload,.handler b.handler⟩ := by
  cases b <;> rfl

variable [Protobuf] {cfg : RaftConfig} {n n' : RaftNode} {io : DiskOutcome}

/-- A registered function does to the bytes of a request what the node does to the request, and
its result is the reply that the node sends last. -/
theorem Body.Sendable.run_eq {b : Body} (h : b.Sendable) {s r : ℕ} {queued : List ApplyTask}
    {result : Result Bytes}
    (hrun : b.handler.run cfg n io b.payload s r = some (n',queued,result)) (sender : MemberId)
    (live : List ℕ) : queued = [] ∧ ∃ events reply, b.Replies reply ∧ result = .ok reply.bytes ∧
      n.receive cfg io sender live b = some (n',events ++ [.sent sender reply]) := by
  obtain ⟨hrequest,hsize⟩ := h
  have hpayload : b.payload = b.bytes := if_pos hsize
  rw [hpayload] at hrun
  cases b with
  | requestVote request =>
    rw [Body.handler, Body.bytes, Handler.run, PeerWire.parse_requestVoteRequest] at hrun
    cases hrun
    exact ⟨rfl,_,_,.requestVote,rfl,rfl⟩
  | appendEntries callback request =>
    rw [Body.handler, Body.bytes, Handler.run, PeerWire.parse_appendEntriesRequest] at hrun
    obtain ⟨⟨n₁,events,response⟩,happend,hrun⟩ := Option.bind_eq_some_iff.mp hrun
    cases hrun
    refine ⟨rfl,events,_,.appendEntries,rfl,?_⟩
    rw [RaftNode.receive, happend]
    rfl
  | requestVoteReply response => cases hrequest
  | appendEntriesReply callback response => cases hrequest

end Bodies
end Raft
end Foskv
