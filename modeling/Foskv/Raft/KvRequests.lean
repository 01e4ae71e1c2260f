import Foskv.Raft.Requests

/-! What the three KV handlers do, said once for all of them: a request is answered at once and
leaves the node alone, or its command is queued. -/
namespace Foskv.Raft

theorem mem_broadcast {cfg : RaftConfig} {body : Body} {e : Event} :
    e ∈ cfg.broadcast body ↔
      ∃ receiver ∈ cfg.peers.map Peer.memberId, receiver ≠ cfg.memberId ∧
        e = .sent receiver body := by
  simp only [RaftConfig.broadcast, List.mem_map, List.mem_filter, decide_eq_true_eq]
  constructor
  · rintro ⟨peer,⟨hp,hne⟩,rfl⟩
    exact ⟨peer.memberId,⟨peer,hp,rfl⟩,hne,rfl⟩
  · rintro ⟨_,⟨peer,hp,rfl⟩,hne,rfl⟩
    exact ⟨peer,⟨hp,hne⟩,rfl⟩

namespace KvMethod

/-- The command that the handler of a method makes of its payload. -/
def command [Protobuf] (method : KvMethod) (reqPayload : Bytes) : Option InternalRaftRequest :=
  match method with
  | .put => (Wire.parse reqPayload).map .kvPut
  | .get => (Wire.parse reqPayload).map .kvGet
  | .delete => (Wire.parse reqPayload).map .kvDelete

/-- The response of a method that has nothing but its header. -/
def response (method : KvMethod) (header : Rpc.ResponseHeader) : Kv.Response :=
  match method with
  | .put => .put header
  | .get => .get header none
  | .delete => .delete header

theorem response_header (method : KvMethod) (header : Rpc.ResponseHeader) :
    (method.response header).header = header := by
  cases method <;> rfl

def parseFailed : KvMethod → Error
  | .put => .kvPutRequestParseFailed
  | .get => .kvGetRequestParseFailed
  | .delete => .kvDeleteRequestParseFailed

end KvMethod

namespace RaftNode
variable [Protobuf]

/-- The entry for a command at the end of the log. -/
def entryFor (n : RaftNode) (request : InternalRaftRequest) : LogEntry :=
  ⟨n.currentTerm,n.logs.lastLogIndex + 1,Wire.serialize request⟩

/-- The entry is serialised within the buffer of the persister. -/
def Buffered (entry : LogEntry) : Prop :=
  (Wire.serialize entry : Bytes).length ≤ Persister.bufferSize

instance (entry : LogEntry) : Decidable (Buffered entry) := inferInstanceAs (Decidable (_ ≤ _))

/-- A leader whose log got the entry of a command, and its queue the task, with some store
content. -/
def queueing (cfg : RaftConfig) (n : RaftNode) (sessionId requestId : ℕ)
    (request : InternalRaftRequest) (p : Persister) : RaftNode :=
  { n with
    logs := { n.logs with entries := n.logs.entries ++ [n.entryFor request], persister := p }
    matchIndex := n.matchIndex.insert cfg.memberId (n.logs.lastLogIndex + 1)
    nextIndex := n.nextIndex.insert cfg.memberId (n.logs.lastLogIndex + 2)
    stateMachine := n.stateMachine.produceApplyTask
      ⟨n.logs.lastLogIndex + 1,sessionId,requestId,request⟩ }

/-- The broadcast of the entry that a leader has just put at the end of its log. -/
def newestRequest (cfg : RaftConfig) (n : RaftNode) (newest : LogEntry) : AppendEntriesRequest :=
  { n.produceAppendEntriesRequest cfg with entries := [newest] }

/-- The task of a command, the broadcast of its entry, and the answer that is put off. -/
def queueingEvents (cfg : RaftConfig) (n : RaftNode) (sessionId requestId : ℕ)
    (request : InternalRaftRequest) (p : Persister) : List Event :=
  .queued ⟨n.logs.lastLogIndex + 1,sessionId,requestId,request⟩ (n.entryFor request) ::
    cfg.broadcast (.appendEntries .appendEntries ((n.queueing cfg sessionId requestId request
      p).newestRequest cfg (n.entryFor request))) ++ [.answered sessionId requestId (.ok none)]

section Events
variable {cfg : RaftConfig} {n : RaftNode} {sessionId requestId : ℕ}
  {request : InternalRaftRequest} {p : Persister}

/-- One task is queued, for the new entry. -/
theorem mem_queueingEvents {task : ApplyTask} {entry : LogEntry} :
    .queued task entry ∈ n.queueingEvents cfg sessionId requestId request p ↔
      task = ⟨n.logs.lastLogIndex + 1,sessionId,requestId,request⟩ ∧
        entry = n.entryFor request := by
  simp [queueingEvents, mem_broadcast]

/-- Every other member of the configuration is sent the request with the new entry. -/
theorem sent_mem_queueingEvents {receiver : MemberId} {body : Body} :
    .sent receiver body ∈ n.queueingEvents cfg sessionId requestId request p ↔
      receiver ∈ cfg.peers.map Peer.memberId ∧ receiver ≠ cfg.memberId ∧
        body = .appendEntries .appendEntries
          ((n.queueing cfg sessionId requestId request p).newestRequest cfg
            (n.entryFor request)) := by
  simp only [queueingEvents, List.cons_append, List.mem_cons, List.mem_append, mem_broadcast]
  constructor
  · rintro (heq | ⟨_,hpeer,hne,heq⟩ | heq | heq)
    · cases heq
    · cases heq
      exact ⟨hpeer,hne,rfl⟩
    · cases heq
    · cases heq
  · rintro ⟨hpeer,hne,rfl⟩
    exact Or.inr (Or.inl ⟨_,hpeer,hne,rfl⟩)

end Events

/-- The ways through a KV handler. -/
inductive Handled (cfg : RaftConfig) (n : RaftNode) (io : DiskOutcome) (method : KvMethod)
    (reqPayload : Bytes) (sessionId requestId : ℕ) : RaftNode → List Event → Prop
  | unparsed (hcommand : method.command reqPayload = none) :
      Handled cfg n io method reqPayload sessionId requestId n
        [.answered sessionId requestId (.error method.parseFailed)]
  | redirected {request} (hcommand : method.command reqPayload = some request)
      (hrole : n.role ≠ .leader) :
      Handled cfg n io method reqPayload sessionId requestId n
        [.answered sessionId requestId (.ok (some (method.response
          (produceRpcResponseHeader false .needRedirect (n.redirect cfg)))))]
  | refused {request} (hcommand : method.command reqPayload = some request)
      (hrole : n.role = .leader) (hbuffer : Buffered (n.entryFor request))
      (hdisk : io.append = false) :
      Handled cfg n io method reqPayload sessionId requestId n
        [.answered sessionId requestId (.ok (some (method.response
          (produceRpcResponseHeader false .logEntryAppendOrPersistFailed none))))]
  | queued {request p} (hcommand : method.command reqPayload = some request)
      (hrole : n.role = .leader) (hbuffer : Buffered (n.entryFor request))
      (hdisk : io.append = true)
      (hlogs : n.logs.appendEntries true [n.entryFor request] =
        .ok (n.queueing cfg sessionId requestId request p).logs) :
      Handled cfg n io method reqPayload sessionId requestId
        (n.queueing cfg sessionId requestId request p)
        (n.queueingEvents cfg sessionId requestId request p)

section Handlers
variable {cfg : RaftConfig} {n n' : RaftNode} {io : DiskOutcome} {method : KvMethod}
  {reqPayload : Bytes} {sessionId requestId : ℕ} {events : List Event}

/-- The text that the three handlers share, for the command that was parsed. -/
theorem handleKvRequest_handled {α : Type} [Wire α] (command : α → InternalRaftRequest)
    (response : Rpc.ResponseHeader → Kv.Response) (parseFailed : Error)
    (hcommand : method.command reqPayload = (Wire.parse reqPayload).map command)
    (hresponse : ∀ header, method.response header = response header)
    (hfailed : method.parseFailed = parseFailed)
    (h : handleKvRequest command response parseFailed cfg n io reqPayload sessionId requestId =
      some (n',events)) :
    Handled cfg n io method reqPayload sessionId requestId n' events := by
  unfold handleKvRequest at h
  cases hparse : (Wire.parse reqPayload : Option α) with
  | none =>
    rw [hparse] at h hcommand
    cases h
    rw [← hfailed]
    exact .unparsed hcommand
  | some request =>
    rw [hparse] at h hcommand
    dsimp only at h
    split_ifs at h with hrole
    · cases h
      rw [← hresponse]
      exact .redirected hcommand hrole
    rw [not_not] at hrole
    obtain ⟨appended,happend,h⟩ := Option.bind_eq_some_iff.mp h
    obtain ⟨hbuffer,happended⟩ := RaftLog.appendEntry_eq_some happend
    cases hdisk : io.append with
    | false =>
      rw [hdisk] at happended
      obtain rfl := happended
      cases h
      rw [← hresponse]
      exact .refused hcommand hrole hbuffer hdisk
    | true =>
      rw [hdisk] at happended
      obtain rfl := happended
      cases h
      exact .queued hcommand hrole hbuffer hdisk rfl

theorem client_handled
    (h : n.client cfg io reqPayload sessionId requestId method = some (n',events)) :
    Handled cfg n io method reqPayload sessionId requestId n' events := by
  cases method with
  | put => exact handleKvRequest_handled .kvPut .put _ rfl (fun _ => rfl) rfl h
  | get => exact handleKvRequest_handled .kvGet (.get · none) _ rfl (fun _ => rfl) rfl h
  | delete => exact handleKvRequest_handled .kvDelete .delete _ rfl (fun _ => rfl) rfl h

theorem handleKvRequest_none_iff {α : Type} [Wire α] (command : α → InternalRaftRequest)
    (response : Rpc.ResponseHeader → Kv.Response) (parseFailed : Error) :
    handleKvRequest command response parseFailed cfg n io reqPayload sessionId requestId = none ↔
      n.role = .leader ∧ ∃ request ∈ (Wire.parse reqPayload).map command,
        ¬Buffered (n.entryFor request) := by
  unfold handleKvRequest
  cases hparse : (Wire.parse reqPayload : Option α) with
  | none => simp
  | some request =>
    by_cases hrole : n.role = .leader
    · have hnone : n.logs.appendEntry io.append (n.entryFor (command request)) = none ↔
          ¬Buffered (n.entryFor (command request)) := by
        rw [RaftLog.appendEntry_eq_none_iff, Buffered, Nat.not_le]
      simp only [entryFor] at hnone
      simp only [hrole, ne_eq, not_true_eq_false, if_false, Option.map_some, Option.mem_some_iff,
        exists_eq_left', true_and, entryFor]
      generalize RaftLog.appendEntry _ _ _ = appended at hnone ⊢
      rw [← hnone]
      cases appended with
      | none => simp
      | some r => cases r <;> simp
    · simp [hrole]

/-- A KV handler is undefined exactly when a leader's entry overruns the buffer. -/
theorem client_none_iff : n.client cfg io reqPayload sessionId requestId method = none ↔
    n.role = .leader ∧ ∃ request ∈ method.command reqPayload, ¬Buffered (n.entryFor request) := by
  cases method with
  | put => exact handleKvRequest_none_iff .kvPut .put _
  | get => exact handleKvRequest_none_iff .kvGet (.get · none) _
  | delete => exact handleKvRequest_none_iff .kvDelete .delete _

/-- A leader that can buffer and store the entry queues the command. -/
theorem client_queues {request : InternalRaftRequest}
    (hcommand : method.command reqPayload = some request) (hrole : n.role = .leader)
    (hbuffer : Buffered (n.entryFor request)) (hdisk : io.append = true) :
    ∃ p, n.client cfg io reqPayload sessionId requestId method =
      some (n.queueing cfg sessionId requestId request p,
        n.queueingEvents cfg sessionId requestId request p) := by
  have hsome : n.client cfg io reqPayload sessionId requestId method ≠ none := by
    intro hnone
    obtain ⟨-,long,hlong,hover⟩ := client_none_iff.mp hnone
    obtain rfl := Option.some.inj (hcommand.symm.trans hlong)
    exact hover hbuffer
  obtain ⟨⟨n₁,es⟩,hclient⟩ := Option.ne_none_iff_exists'.mp hsome
  have hhandled := client_handled hclient
  rw [hclient]
  clear hclient
  cases hhandled with
  | unparsed hnone => cases hnone.symm.trans hcommand
  | redirected _ hfollower => exact absurd hrole hfollower
  | refused _ _ _ hrefused => cases hrefused.symm.trans hdisk
  | @queued request' p hcommand' _ _ _ _ =>
    obtain rfl := Option.some.inj (hcommand.symm.trans hcommand')
    exact ⟨p,rfl⟩

end Handlers
end RaftNode
end Foskv.Raft
