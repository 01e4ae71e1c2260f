import Foskv.Raft.StateMachine

/-! The configuration of a member, the RPC bodies it exchanges and what a step records. -/
namespace Foskv.Raft

structure Peer where
  memberId : MemberId
  host : Bytes
  port : ℕ
  deriving DecidableEq, Repr

/-- The configuration of one member; `peers` lists every member, itself included. -/
structure RaftConfig where
  clusterId : ℕ
  memberId : MemberId
  peers : List Peer
  deriving DecidableEq, Repr

def RaftConfig.peerCount (cfg : RaftConfig) : ℕ := cfg.peers.length

/-- `config_.peers_.find(member_id)`. -/
def RaftConfig.findPeer (cfg : RaftConfig) (memberId : MemberId) : Option Peer :=
  cfg.peers.find? (fun peer => peer.memberId = memberId)

section FindPeer
variable {cfg : RaftConfig} {memberId : MemberId} {peer : Peer}

theorem RaftConfig.mem_of_findPeer (h : cfg.findPeer memberId = some peer) :
    peer ∈ cfg.peers ∧ peer.memberId = memberId :=
  ⟨List.mem_of_find?_eq_some h,by simpa using List.find?_some h⟩

theorem RaftConfig.exists_findPeer (h : memberId ∈ cfg.peers.map Peer.memberId) :
    ∃ peer, cfg.findPeer memberId = some peer := by
  obtain ⟨peer,hpeer,hid⟩ := List.mem_map.mp h
  rw [← Option.isSome_iff_exists, findPeer, List.find?_isSome]
  exact ⟨peer,hpeer,by simpa using hid⟩

end FindPeer

/-- The callback a sender passes with an AppendEntries request: `handle_heartbeat_response`
or `handle_append_entries_response`. -/
inductive Callback
  | heartbeat
  | appendEntries
  deriving DecidableEq, Repr

/-- Requests and responses between members. A response goes to the callback of its request. -/
inductive Body
  | requestVote (request : RequestVoteRequest)
  | appendEntries (callback : Callback) (request : AppendEntriesRequest)
  | requestVoteReply (response : RequestVoteResponse)
  | appendEntriesReply (callback : Callback) (response : AppendEntriesResponse)
  deriving DecidableEq, Repr

def Body.term : Body → ℕ
  | .requestVote request => request.term
  | .appendEntries _ request => request.term
  | .requestVoteReply response => response.header.term
  | .appendEntriesReply _ response => response.header.term

/-- What an observer of a node sees it do. -/
inductive Event
  /-- A request or response is handed to the transport. -/
  | sent (receiver : MemberId) (body : Body)
  /-- The node gives its vote in a term, to itself or in a granting response; `log` is its
  own log at that moment. -/
  | voted (term : ℕ) (candidate : MemberId) (log : List LogEntry)
  /-- `become_leader` in a term, with the log it starts from. -/
  | becameLeader (term : ℕ) (log : List LogEntry)
  /-- A client request enters the queue for the entry appended for it. -/
  | queued (task : ApplyTask) (entry : LogEntry)
  /-- A task leaves the queue and is executed; `logged` is the log's entry at its index. -/
  | executed (task : ApplyTask) (logged : Option LogEntry)
  /-- A command is applied to the store for a log index. -/
  | applied (index : ℕ) (request : InternalRaftRequest)
  /-- In this term the reply to an executed task is queued on its session. -/
  | replied (term : ℕ) (task : ApplyTask) (invokeTask : InvokeTask)
  /-- A KV handler returns; `.ok none` is the deferred reply of size 0. -/
  | answered (sessionId requestId : ℕ) (result : Result (Option Kv.Response))
  deriving DecidableEq

/-- `broadcast_request_vote_request` and `broadcast_append_entries_request`. -/
def RaftConfig.broadcast (cfg : RaftConfig) (body : Body) : List Event :=
  (cfg.peers.filter (fun peer => peer.memberId ≠ cfg.memberId)).map
    (fun peer => .sent peer.memberId body)

/-- `single_append_entries_request`. -/
def RaftConfig.single (cfg : RaftConfig) (receiver : MemberId) (body : Body) : List Event :=
  if receiver = cfg.memberId then []
  else
    match cfg.findPeer receiver with
    | none => []
    | some peer => [.sent peer.memberId body]

end Foskv.Raft
