import Foskv.Raft.RaftNode

/-! The request handlers of a member and the one step function of a node. -/
namespace Foskv.Raft
namespace RaftNode

variable [Protobuf]

/-- The branch on a larger term shared by the two request handlers. -/
def observeTerm (n : RaftNode) (io : DiskOutcome) (term : ℕ) : RaftNode :=
  if n.currentTerm < term then n.stepDown io term term else n

/-- The vote register is empty or names the candidate. -/
def canVote (n : RaftNode) (candidateId : MemberId) : Bool :=
  n.votedFor = none ∨ n.votedFor = some candidateId

/-- The program's comparison of logs: longer, or equally long with the same last term. -/
def upToDateLog (l : RaftLog) (request : RequestVoteRequest) : Bool :=
  l.lastLogIndex < request.lastLogIndex ∨
    (request.lastLogIndex = l.lastLogIndex ∧ request.lastLogTerm = l.lastLogTerm)

/-- Granting a vote leaves the register as it is. -/
def handleRequestVoteRequest (cfg : RaftConfig) (n : RaftNode) (io : DiskOutcome)
    (request : RequestVoteRequest) : RaftNode × RequestVoteResponse :=
  if request.term < n.currentTerm then (n,n.produceRequestVoteResponse cfg false)
  else
    let n := n.observeTerm io request.term
    (n,n.produceRequestVoteResponse cfg
      (n.canVote request.candidateId && upToDateLog n.logs request))

/-- The commands applied for the log indexes from `start` on; unreadable ones are skipped. -/
def appliedEvents (start : ℕ) (entries : List LogEntry) : List Event :=
  (entries.zipIdx start).filterMap fun e =>
    (Wire.parse e.1.command).map (Event.applied e.2)

/-- Apply the entries above `last_applied_` up to `commit_index_`, if the log has a view of
them; a view that leaves the vector is undefined. -/
def applyView (n : RaftNode) : Option (RaftNode × List Event) :=
  match n.logs.entriesView (n.lastApplied + 1) n.commitIndex with
  | .error _ => some (n,[])
  | .ok view => do
    let entries ← view.read n.logs.entries
    return ({ n with
      stateMachine := n.stateMachine.applyEntries entries
      lastApplied := n.commitIndex },appliedEvents (n.lastApplied + 1) entries)

/-- Raise the commit index towards the leader's, as far as the own log reaches. -/
def raiseCommit (n : RaftNode) (leaderCommit : ℕ) : RaftNode :=
  if n.commitIndex < leaderCommit then
    { n with commitIndex := min n.logs.lastLogIndex leaderCommit }
  else n

/-- The part of `handle_append_entries_request` for an empty list of entries. -/
def handleHeartbeat (cfg : RaftConfig) (n : RaftNode) (leaderCommit : ℕ) :
    Option (RaftNode × List Event × AppendEntriesResponse) := do
  let (n,events) ← (n.raiseCommit leaderCommit).applyView
  return (n,events,n.produceAppendEntriesResponse cfg true 1)

/-- Cut the log at `prev_log_index` when the terms differ there; the request is then still
processed. -/
def resolveConflict (n : RaftNode) (io : DiskOutcome) (prevLogIndex prevLogTerm : ℕ) :
    Option RaftNode :=
  if n.logs.termAt prevLogIndex ≠ prevLogTerm then do
    let logs ← n.logs.truncateEntries io.truncate prevLogIndex
    return { n with logs := logs }
  else some n

/-- The part of `handle_append_entries_request` that puts the entries at the end of the log. -/
def acceptEntries (cfg : RaftConfig) (n : RaftNode) (io : DiskOutcome)
    (entries : List LogEntry) (leaderCommit : ℕ) :
    Option (RaftNode × List Event × AppendEntriesResponse) :=
  match n.logs.appendEntries io.append entries with
  | .error _ => some (n,[],n.produceAppendEntriesResponse cfg false (n.logs.lastLogIndex + 1))
  | .ok logs =>
    let n := { n with logs := logs }
    if n.commitIndex < leaderCommit then do
      let (n,events) ← (n.raiseCommit leaderCommit).applyView
      return (n,events,n.produceAppendEntriesResponse cfg true 1)
    else some (n,[],n.produceAppendEntriesResponse cfg true 1)

def handleAppendEntriesRequest (cfg : RaftConfig) (n : RaftNode) (io : DiskOutcome)
    (request : AppendEntriesRequest) :
    Option (RaftNode × List Event × AppendEntriesResponse) :=
  if request.term < n.currentTerm then
    some (n,[],n.produceAppendEntriesResponse cfg false (n.logs.lastLogIndex + 1))
  else
    let n := { n.observeTerm io request.term with leaderId := some request.leaderId }
    if request.entries.isEmpty then n.handleHeartbeat cfg request.leaderCommit
    else if n.logs.lastLogIndex < request.prevLogIndex then
      some (n,[],n.produceAppendEntriesResponse cfg false (n.logs.lastLogIndex + 1))
    else do
      let n ← n.resolveConflict io request.prevLogIndex request.prevLogTerm
      n.acceptEntries cfg io request.entries request.leaderCommit

/-- The common text of the three KV handlers. It is undefined when a leader's entry is longer than
the persister's buffer. -/
def handleKvRequest {α : Type} [Wire α] (command : α → InternalRaftRequest)
    (response : Rpc.ResponseHeader → Kv.Response) (parseFailed : Error) (cfg : RaftConfig)
    (n : RaftNode) (io : DiskOutcome) (reqPayload : Bytes) (sessionId requestId : ℕ) :
    Option (RaftNode × List Event) :=
  match (Wire.parse reqPayload : Option α) with
  | none => some (n,[.answered sessionId requestId (.error parseFailed)])
  | some request =>
    if n.role ≠ .leader then
      some (n,[.answered sessionId requestId (.ok (some (response
        (produceRpcResponseHeader false .needRedirect (n.redirect cfg)))))])
    else do
      let internalRaftRequest := command request
      let lastLogIndex := n.logs.lastLogIndex
      let entry : LogEntry :=
        ⟨n.currentTerm,lastLogIndex + 1,Wire.serialize internalRaftRequest⟩
      match ← n.logs.appendEntry io.append entry with
      | .error _ =>
        return (n,[.answered sessionId requestId (.ok (some (response
          (produceRpcResponseHeader false .logEntryAppendOrPersistFailed none))))])
      | .ok logs =>
        let n := { n with
          logs := logs
          matchIndex := n.matchIndex.insert cfg.memberId (lastLogIndex + 1) }
        let newEntry : LogEntry :=
          ⟨n.currentTerm,lastLogIndex + 1,Wire.serialize internalRaftRequest⟩
        let appendEntriesRequest := { n.produceAppendEntriesRequest cfg with entries := [newEntry] }
        let task : ApplyTask := ⟨newEntry.index,sessionId,requestId,internalRaftRequest⟩
        let n := { n with
          nextIndex := n.nextIndex.insert cfg.memberId (newEntry.index + 1)
          stateMachine := n.stateMachine.produceApplyTask task }
        return (n,.queued task entry ::
          cfg.broadcast (.appendEntries .appendEntries appendEntriesRequest) ++
            [.answered sessionId requestId (.ok none)])

def handleKvPutRequest : RaftConfig → RaftNode → DiskOutcome → Bytes → ℕ → ℕ →
    Option (RaftNode × List Event) :=
  handleKvRequest .kvPut .put .kvPutRequestParseFailed

def handleKvGetRequest : RaftConfig → RaftNode → DiskOutcome → Bytes → ℕ → ℕ →
    Option (RaftNode × List Event) :=
  handleKvRequest .kvGet (.get · none) .kvGetRequestParseFailed

def handleKvDeleteRequest : RaftConfig → RaftNode → DiskOutcome → Bytes → ℕ → ℕ →
    Option (RaftNode × List Event) :=
  handleKvRequest .kvDelete .delete .kvDeleteRequestParseFailed

end RaftNode

inductive KvMethod
  | put
  | get
  | delete
  deriving DecidableEq, Repr

/-- What a node reacts to. `live` are the sessions open at that moment. -/
inductive Input
  | electionTimeout
  | heartbeatTimeout
  | receive (sender : MemberId) (body : Body) (live : List ℕ)
  | client (method : KvMethod) (reqPayload : Bytes) (sessionId requestId : ℕ)
  deriving DecidableEq

namespace RaftNode

variable [Protobuf]

/-- The register's event of a response that grants. -/
def voteEvents (n : RaftNode) (request : RequestVoteRequest) (response : RequestVoteResponse) :
    List Event :=
  if response.voteGranted then [.voted n.currentTerm request.candidateId n.logs.entries] else []

/-- One request or response from another member; a request is answered to its sender. -/
def receive (cfg : RaftConfig) (n : RaftNode) (io : DiskOutcome) (sender : MemberId)
    (live : List ℕ) : Body → Option (RaftNode × List Event)
  | .requestVote request =>
    let r := n.handleRequestVoteRequest cfg io request
    some (r.1,r.1.voteEvents request r.2 ++ [.sent sender (.requestVoteReply r.2)])
  | .appendEntries callback request => do
    let (n,events,response) ← n.handleAppendEntriesRequest cfg io request
    return (n,events ++ [.sent sender (.appendEntriesReply callback response)])
  | .requestVoteReply response => some (n.handleRequestVoteResponse cfg io response)
  | .appendEntriesReply .heartbeat response => some (n.handleHeartbeatResponse io response)
  | .appendEntriesReply .appendEntries response =>
    some (n.handleAppendEntriesResponse io live response)

/-- The KV handlers are registered one for each method. -/
def client (cfg : RaftConfig) (n : RaftNode) (io : DiskOutcome) (reqPayload : Bytes)
    (sessionId requestId : ℕ) : KvMethod → Option (RaftNode × List Event)
  | .put => n.handleKvPutRequest cfg io reqPayload sessionId requestId
  | .get => n.handleKvGetRequest cfg io reqPayload sessionId requestId
  | .delete => n.handleKvDeleteRequest cfg io reqPayload sessionId requestId

def step (cfg : RaftConfig) (n : RaftNode) (io : DiskOutcome) :
    Input → Option (RaftNode × List Event)
  | .electionTimeout => some (n.startElectionTimeout cfg)
  | .heartbeatTimeout => some (n.startHeartbeatTimeout cfg)
  | .receive sender body live => n.receive cfg io sender live body
  | .client method reqPayload sessionId requestId =>
    n.client cfg io reqPayload sessionId requestId method

end RaftNode
end Foskv.Raft
