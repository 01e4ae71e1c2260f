import Foskv.Raft.RaftLog
import Foskv.Raft.Transport
import Mathlib.Data.List.AList
import Mathlib.Data.List.Sort

/-! One member of the cluster. A handler runs under the node's mutex, so each is one step;
`none` is a step whose behaviour the language leaves undefined. -/
namespace Foskv.Raft

/-- `std::unordered_map<uint64_t, uint64_t>`, in the order of its iteration. -/
abbrev IndexMap := AList (fun _ : MemberId => ℕ)

namespace IndexMap

/-- `operator[]`: an absent key is inserted with value 0. -/
def touch (m : IndexMap) (k : MemberId) : IndexMap :=
  match m.lookup k with
  | none => m.insert k 0
  | some _ => m

@[simp] theorem lookup_touch_self (m : IndexMap) (k : MemberId) :
    (m.touch k).lookup k = some ((m.lookup k).getD 0) := by
  unfold touch
  cases h : m.lookup k with
  | none => exact AList.lookup_insert m
  | some v => exact h

theorem lookup_touch_ne {m : IndexMap} {k k' : MemberId} (h : k' ≠ k) :
    (m.touch k).lookup k' = m.lookup k' := by
  unfold touch
  split
  · exact AList.lookup_insert_ne h
  · rfl

def values (m : IndexMap) : List ℕ := m.entries.map Sigma.snd

/-- Update every value in place. -/
def mapValues (f : ℕ → ℕ) (m : IndexMap) : IndexMap where
  entries := m.entries.map fun e => ⟨e.1,f e.2⟩
  nodupKeys := by
    have h := m.nodupKeys
    rw [List.NodupKeys, List.keys] at h ⊢
    simpa [List.map_map, Function.comp_def] using h

/-- `idxs[idxs.size()/2]` of the values in ascending order. -/
def middle (m : IndexMap) : ℕ :=
  let idxs := m.values.insertionSort (· ≤ ·)
  (idxs[idxs.length/2]?).getD 0

end IndexMap

inductive Role
  | leader
  | follower
  | candidate
  deriving DecidableEq, Repr

structure RaftNode where
  role : Role
  votes : ℕ
  leaderId : Option MemberId
  stateMachine : StateMachine
  currentTerm : ℕ
  votedFor : Option MemberId
  logs : RaftLog
  commitIndex : ℕ
  lastApplied : ℕ
  nextIndex : IndexMap
  matchIndex : IndexMap

/-- Which of the raft-store writes of one step RocksDB accepts. -/
structure DiskOutcome where
  state : Bool
  append : Bool
  truncate : Bool
  deriving DecidableEq, Repr

def DiskOutcome.ok : DiskOutcome := ⟨true,true,true⟩

namespace RaftNode

/-- The node built from what its two stores hold. -/
def create [Protobuf] (raftStore kvStore : Storage) (accepted : Bool) : Result RaftNode :=
  match RaftLog.create ⟨raftStore⟩ accepted with
  | .error e => .error e
  | .ok logs =>
    match logs.persister.recoverState with
    | .error e => .error e
    | .ok state => .ok {
        role := .follower
        votes := 0
        leaderId := none
        stateMachine := ⟨kvStore,[]⟩
        currentTerm := state.currentTerm
        votedFor := state.votedFor
        logs := logs
        commitIndex := 0
        lastApplied := 0
        nextIndex := ∅
        matchIndex := ∅ }

section Produce
variable (cfg : RaftConfig) (n : RaftNode)

def produceResponseHeader : ResponseHeader := ⟨cfg.clusterId,cfg.memberId,n.currentTerm⟩

def produceRequestVoteRequest : RequestVoteRequest :=
  ⟨n.currentTerm,cfg.memberId,n.logs.lastLogIndex,n.logs.lastLogTerm⟩

def produceRequestVoteResponse (voteGranted : Bool) : RequestVoteResponse :=
  ⟨n.produceResponseHeader cfg,voteGranted⟩

def produceAppendEntriesRequest : AppendEntriesRequest :=
  ⟨n.currentTerm,cfg.memberId,n.logs.prevLogIndex,n.logs.prevLogTerm,[],n.commitIndex⟩

def produceAppendEntriesResponse (success : Bool) (conflictIndex : ℕ) : AppendEntriesResponse :=
  ⟨n.produceResponseHeader cfg,success,n.logs.lastLogIndex,conflictIndex⟩

end Produce

/-- `none` unless the known leader is in the configuration. -/
def redirect (cfg : RaftConfig) (n : RaftNode) : Option Rpc.Redirect := do
  let leaderId ← n.leaderId
  let leader ← cfg.findPeer leaderId
  return ⟨leader.host,leader.port⟩

section Terms
variable [Protobuf]

/-- Write the vote record; a failure is only logged. -/
def persistState (n : RaftNode) (io : DiskOutcome) (term : ℕ) : RaftNode :=
  match n.logs.persister.persistState io.state term n.votedFor with
  | .error _ => n
  | .ok p => { n with logs := { n.logs with persister := p } }

def startElection (cfg : RaftConfig) (n : RaftNode) : RaftNode :=
  { n with
    votes := 1
    votedFor := some cfg.memberId
    role := .candidate
    currentTerm := n.currentTerm + 1 }

def increaseTermTo (n : RaftNode) (term : ℕ) : RaftNode :=
  { n with votes := 0, votedFor := none, currentTerm := term }

/-- The branch every handler takes on a larger term. `persisted` is the term it writes. -/
def stepDown (n : RaftNode) (io : DiskOutcome) (term persisted : ℕ) : RaftNode :=
  { n.increaseTermTo term with role := .follower }.persistState io persisted

def becomeLeader (n : RaftNode) (io : DiskOutcome) : RaftNode :=
  { n with
    votes := 0
    votedFor := none
    role := .leader
    nextIndex := n.nextIndex.mapValues fun _ => n.logs.lastLogIndex + 1 }.persistState io
      n.currentTerm

end Terms

section Timers
variable (cfg : RaftConfig) (n : RaftNode)

/-- One expiry of the election timer. -/
def startElectionTimeout : RaftNode × List Event :=
  if n.role = .leader then (n,[])
  else
    let n := n.startElection cfg
    (n,.voted n.currentTerm cfg.memberId n.logs.entries ::
      cfg.broadcast (.requestVote (n.produceRequestVoteRequest cfg)))

/-- The request that re-sends a member the entries from `nextIndex` on. -/
def reissueRequest (nextIndex : ℕ) : AppendEntriesRequest :=
  ⟨n.currentTerm,cfg.memberId,nextIndex - 1,n.logs.termAt (nextIndex - 1),
    (List.range' nextIndex (n.logs.lastLogIndex + 1 - nextIndex)).filterMap
      (fun index => (n.logs.entryAt index).toOption),n.commitIndex⟩

/-- The re-send to one member, for those that lag behind. -/
def reissue (memberId : MemberId) (nextIndex : ℕ) : List Event :=
  if nextIndex ≤ n.logs.lastLogIndex ∧ nextIndex ≠ 0 then
    cfg.single memberId (.appendEntries .appendEntries (n.reissueRequest cfg nextIndex))
  else []

/-- The loop advances the map's own values. -/
def advanceNextIndex : IndexMap :=
  n.nextIndex.mapValues fun nextIndex =>
    if nextIndex ≤ n.logs.lastLogIndex ∧ nextIndex ≠ 0 then n.logs.lastLogIndex + 1
    else nextIndex

/-- One expiry of the heartbeat timer. -/
def startHeartbeatTimeout : RaftNode × List Event :=
  if n.role ≠ .leader then (n,[])
  else
    let reissued := (n.nextIndex.entries.map fun e => n.reissue cfg e.1 e.2).flatten
    let n := { n with nextIndex := n.advanceNextIndex }
    (n,reissued ++ cfg.broadcast (.appendEntries .heartbeat (n.produceAppendEntriesRequest cfg)))

end Timers

section Responses
variable [Protobuf]

/-- A larger term makes the node a follower, but what it writes is the term it had. -/
def handleRequestVoteResponse (cfg : RaftConfig) (n : RaftNode) (io : DiskOutcome)
    (response : RequestVoteResponse) : RaftNode × List Event :=
  if response.header.term < n.currentTerm then (n,[])
  else if n.currentTerm < response.header.term then
    (n.stepDown io response.header.term n.currentTerm,[])
  else if n.role = .leader then (n,[])
  else if response.voteGranted then
    let n := { n with votes := n.votes + 1 }
    if cfg.peerCount/2 < n.votes ∧ n.role = .candidate then
      (n.becomeLeader io,[.becameLeader n.currentTerm n.logs.entries])
    else (n,[])
  else (n,[])

def handleHeartbeatResponse (n : RaftNode) (io : DiskOutcome)
    (response : AppendEntriesResponse) : RaftNode × List Event :=
  if response.header.term < n.currentTerm ∨ n.role ≠ .leader then (n,[])
  else if n.currentTerm < response.header.term then
    (n.stepDown io response.header.term response.header.term,[])
  else (n,[])

/-- What an executed task shows: its execution, its command and the reply, which is only
queued on a session that is still open. -/
def taskEvents (live : List ℕ) (n : RaftNode) (done : ApplyTask × InvokeTask) : List Event :=
  [.executed done.1 (n.logs.entryAt done.1.index).toOption,
    .applied done.1.index done.1.request] ++
  if done.1.sessionId ∈ live then [.replied n.currentTerm done.1 done.2] else []

/-- Commit the middle of `match_index_` and apply the queue up to it. -/
def commitMiddle (n : RaftNode) (live : List ℕ) : RaftNode × List Event :=
  let commitIndex := n.matchIndex.middle
  let run := n.stateMachine.apply commitIndex
  ({ n with commitIndex := commitIndex, stateMachine := run.1, lastApplied := commitIndex },
    (run.2.map (n.taskEvents live)).flatten)

def handleAppendEntriesResponse (n : RaftNode) (io : DiskOutcome) (live : List ℕ)
    (response : AppendEntriesResponse) : RaftNode × List Event :=
  let memberId := response.header.memberId
  if response.header.term < n.currentTerm ∨ n.role ≠ .leader then (n,[])
  else if n.currentTerm < response.header.term then
    (n.stepDown io response.header.term response.header.term,[])
  else if !response.success then
    ({ n with nextIndex := n.nextIndex.insert memberId response.conflictIndex },[])
  else
    let n := { n with matchIndex := n.matchIndex.touch memberId }
    if ((n.matchIndex.lookup memberId).getD 0) < response.lastLogIndex then
      { n with matchIndex := n.matchIndex.insert memberId response.lastLogIndex }.commitMiddle live
    else (n,[])

end Responses
end RaftNode
end Foskv.Raft
