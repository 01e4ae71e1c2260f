import Foskv.Raft.KvRequests

/-! What one step of a node can do, said once: every branch of every handler is a constructor
of `Transition`, and each later property of a step is a case analysis over them. -/
namespace Foskv.Raft
namespace RaftNode

/-- A node after the branch on a larger term, with some store content. -/
def lowered (n : RaftNode) (term : ℕ) (p : Persister) : RaftNode :=
  { n with
    role := .follower
    votes := 0
    votedFor := none
    currentTerm := term
    logs := { n.logs with persister := p } }

/-- A node that won its election, with some store content. -/
def crowned (n : RaftNode) (p : Persister) : RaftNode :=
  { n with
    role := .leader
    votes := 0
    votedFor := none
    nextIndex := n.nextIndex.mapValues fun _ => n.logs.lastLogIndex + 1
    logs := { n.logs with persister := p } }

/-- A node whose log got new entries at its end, with some store content. -/
def extended (n : RaftNode) (entries : List LogEntry) (p : Persister) : RaftNode :=
  { n with logs := { n.logs with entries := n.logs.entries ++ entries, persister := p } }

/-- A node whose log was cut before an index, with some store content. -/
def shortened (n : RaftNode) (startIndex : ℕ) (p : Persister) : RaftNode :=
  { n with logs := { n.logs with
      entries := n.logs.entries.take (startIndex - n.logs.firstIndex)
      persister := p } }

/-- A leader that was told a new last index of a member. -/
def matched (n : RaftNode) (memberId : MemberId) (index : ℕ) : RaftNode :=
  { n with matchIndex := (n.matchIndex.touch memberId).insert memberId index }

section Writes
variable [Protobuf]

theorem persistState_eq (n : RaftNode) (io : DiskOutcome) (term : ℕ) :
    ∃ p, n.persistState io term = { n with logs := { n.logs with persister := p } } := by
  unfold persistState
  split
  · exact ⟨n.logs.persister,rfl⟩
  · exact ⟨_,rfl⟩

theorem stepDown_eq (n : RaftNode) (io : DiskOutcome) (term persisted : ℕ) :
    ∃ p, n.stepDown io term persisted = n.lowered term p := by
  obtain ⟨p,hp⟩ := persistState_eq { n.increaseTermTo term with role := .follower } io persisted
  exact ⟨p,hp⟩

theorem becomeLeader_eq (n : RaftNode) (io : DiskOutcome) :
    ∃ p, n.becomeLeader io = n.crowned p := by
  obtain ⟨p,hp⟩ := persistState_eq { n with
    votes := 0
    votedFor := none
    role := .leader
    nextIndex := n.nextIndex.mapValues fun _ => n.logs.lastLogIndex + 1 } io n.currentTerm
  exact ⟨p,hp⟩

/-- `n₁` is the node as a request of term `term`, not below its own, finds it. -/
def Observed (n : RaftNode) (term : ℕ) (n₁ : RaftNode) : Prop :=
  (n.currentTerm = term ∧ n₁ = n) ∨ (n.currentTerm < term ∧ ∃ p, n₁ = n.lowered term p)

theorem observeTerm_observed (n : RaftNode) (io : DiskOutcome) {term : ℕ}
    (h : n.currentTerm ≤ term) : n.Observed term (n.observeTerm io term) := by
  unfold observeTerm
  split_ifs with ht
  · exact Or.inr ⟨ht,stepDown_eq n io term term⟩
  · exact Or.inl ⟨by omega,rfl⟩

theorem appendEntries_eq {l l' : RaftLog} {accepted : Bool} {entries : List LogEntry}
    (h : l.appendEntries accepted entries = .ok l') :
    ∃ p, l' = { l with entries := l.entries ++ entries, persister := p } := by
  unfold RaftLog.appendEntries at h
  split at h
  · cases h
  · exact ⟨_,(Except.ok.inj h).symm⟩

omit [Protobuf] in
/-- Cutting the log leaves it alone or takes the entries from the index on away. -/
theorem truncateEntries_eq {l l' : RaftLog} {accepted : Bool} {startIndex : ℕ}
    (h : l.truncateEntries accepted startIndex = some l') :
    l' = l ∨ ((l.firstIndex ≤ startIndex ∧ startIndex ≤ l.lastLogIndex) ∧
      ∃ p, l' = { l with
        entries := l.entries.take (startIndex - l.firstIndex), persister := p }) := by
  unfold RaftLog.truncateEntries at h
  split_ifs at h with hr
  · exact Or.inl (Option.some.inj h).symm
  · refine Or.inr ⟨by omega,?_⟩
    simp only [Option.bind_eq_bind, Option.bind_eq_some_iff] at h
    obtain ⟨r,-,h⟩ := h
    cases r with
    | error e => exact ⟨l.persister,(Option.some.inj h).symm⟩
    | ok p => exact ⟨p,(Option.some.inj h).symm⟩

/-- What stands before `prev_log_index` after the conflict branch. -/
def Resolved (n : RaftNode) (prevLogIndex prevLogTerm : ℕ) (n₂ : RaftNode) : Prop :=
  n₂ = n ∨ (n.logs.termAt prevLogIndex ≠ prevLogTerm ∧
    (n.logs.firstIndex ≤ prevLogIndex ∧ prevLogIndex ≤ n.logs.lastLogIndex) ∧
    ∃ p, n₂ = n.shortened prevLogIndex p)

omit [Protobuf] in
theorem resolveConflict_resolved {n n₂ : RaftNode} {io : DiskOutcome} {prevLogIndex prevLogTerm : ℕ}
    (h : n.resolveConflict io prevLogIndex prevLogTerm = some n₂) :
    n.Resolved prevLogIndex prevLogTerm n₂ := by
  unfold resolveConflict at h
  split_ifs at h with ht
  · obtain ⟨l,hl,h⟩ := Option.bind_eq_some_iff.mp h
    obtain rfl := Option.some.inj h
    obtain rfl | ⟨hr,p,rfl⟩ := truncateEntries_eq hl
    · exact Or.inl rfl
    · exact Or.inr ⟨ht,hr,p,rfl⟩
  · exact Or.inl (Option.some.inj h).symm

end Writes

/-- The node after `applyView`: nothing happened, or the entries of a view were applied. -/
inductive Viewed [Protobuf] (n : RaftNode) : RaftNode → List Event → Prop
  | unchanged {e} (hview : n.logs.entriesView (n.lastApplied + 1) n.commitIndex = .error e) :
      Viewed n n []
  | applied {view entries} (hview : n.logs.entriesView (n.lastApplied + 1) n.commitIndex = .ok view)
      (hread : view.read n.logs.entries = some entries) :
      Viewed n { n with
        stateMachine := n.stateMachine.applyEntries entries
        lastApplied := n.commitIndex } (appliedEvents (n.lastApplied + 1) entries)

theorem applyView_viewed [Protobuf] {n n' : RaftNode} {events : List Event}
    (h : n.applyView = some (n',events)) : n.Viewed n' events := by
  unfold applyView at h
  split at h
  · rename_i hview
    cases h
    exact .unchanged hview
  · rename_i view hview
    obtain ⟨entries,hread,h⟩ := Option.bind_eq_some_iff.mp h
    cases h
    exact .applied hview hread

/-- The end of the append path: the commit index is raised and applied, or left. -/
inductive Settled [Protobuf] (n : RaftNode) (leaderCommit : ℕ) : RaftNode → List Event → Prop
  | left (h : leaderCommit ≤ n.commitIndex) : Settled n leaderCommit n []
  | raised {n' events} (h : n.commitIndex < leaderCommit)
      (hview : (n.raiseCommit leaderCommit).Viewed n' events) : Settled n leaderCommit n' events

/-- One step of a node. The first constructor covers every message that is dropped and every
KV request that is refused. -/
inductive Transition [Protobuf] (cfg : RaftConfig) (n : RaftNode) :
    Input → RaftNode → List Event → Prop
  | idle {input events}
      (hevents : events = [] ∨ ∃ sessionId requestId result,
        events = [.answered sessionId requestId result]) :
      Transition cfg n input n events
  | election (hrole : n.role ≠ .leader) :
      Transition cfg n .electionTimeout (n.startElection cfg)
        (.voted (n.currentTerm + 1) cfg.memberId n.logs.entries ::
          cfg.broadcast (.requestVote ⟨n.currentTerm + 1,cfg.memberId,n.logs.lastLogIndex,
            n.logs.lastLogTerm⟩))
  | heartbeat (hrole : n.role = .leader) :
      Transition cfg n .heartbeatTimeout { n with nextIndex := n.advanceNextIndex }
        ((n.nextIndex.entries.map fun e => n.reissue cfg e.1 e.2).flatten ++
          cfg.broadcast (.appendEntries .heartbeat (n.produceAppendEntriesRequest cfg)))
  | voteStale {sender live request} (hterm : request.term < n.currentTerm) :
      Transition cfg n (.receive sender (.requestVote request) live) n
        [.sent sender (.requestVoteReply (n.produceRequestVoteResponse cfg false))]
  | voteDenied {sender live request n₁} (hobs : n.Observed request.term n₁)
      (hdeny : (n₁.canVote request.candidateId && upToDateLog n.logs request) = false) :
      Transition cfg n (.receive sender (.requestVote request) live) n₁
        [.sent sender (.requestVoteReply (n₁.produceRequestVoteResponse cfg false))]
  | voteGranted {sender live request n₁} (hobs : n.Observed request.term n₁)
      (hfree : n₁.canVote request.candidateId = true)
      (hlog : upToDateLog n.logs request = true) :
      Transition cfg n (.receive sender (.requestVote request) live) n₁
        [.voted n₁.currentTerm request.candidateId n.logs.entries,
          .sent sender (.requestVoteReply (n₁.produceRequestVoteResponse cfg true))]
  | appendStale {sender live callback request} (hterm : request.term < n.currentTerm) :
      Transition cfg n (.receive sender (.appendEntries callback request) live) n
        [.sent sender (.appendEntriesReply callback
          (n.produceAppendEntriesResponse cfg false (n.logs.lastLogIndex + 1)))]
  | heartbeatReceived {sender live callback request n₁ n₂ events}
      (hobs : n.Observed request.term n₁) (hempty : request.entries = [])
      (hview : ({ n₁ with leaderId := some request.leaderId }.raiseCommit
        request.leaderCommit).Viewed n₂ events) :
      Transition cfg n (.receive sender (.appendEntries callback request) live) n₂
        (events ++ [.sent sender (.appendEntriesReply callback
          (n₂.produceAppendEntriesResponse cfg true 1))])
  | appendBeyond {sender live callback request n₁} (hobs : n.Observed request.term n₁)
      (hentries : request.entries ≠ []) (hprev : n.logs.lastLogIndex < request.prevLogIndex) :
      Transition cfg n (.receive sender (.appendEntries callback request) live)
        { n₁ with leaderId := some request.leaderId }
        [.sent sender (.appendEntriesReply callback
          (n₁.produceAppendEntriesResponse cfg false (n.logs.lastLogIndex + 1)))]
  | appendFailed {sender live callback request n₁ n₂} (hobs : n.Observed request.term n₁)
      (hentries : request.entries ≠ []) (hprev : request.prevLogIndex ≤ n.logs.lastLogIndex)
      (hres : { n₁ with leaderId := some request.leaderId }.Resolved request.prevLogIndex
        request.prevLogTerm n₂) :
      Transition cfg n (.receive sender (.appendEntries callback request) live) n₂
        [.sent sender (.appendEntriesReply callback
          (n₂.produceAppendEntriesResponse cfg false (n₂.logs.lastLogIndex + 1)))]
  | appended {sender live callback request n₁ n₂ p n₃ events}
      (hobs : n.Observed request.term n₁)
      (hentries : request.entries ≠ []) (hprev : request.prevLogIndex ≤ n.logs.lastLogIndex)
      (hres : { n₁ with leaderId := some request.leaderId }.Resolved request.prevLogIndex
        request.prevLogTerm n₂)
      (hset : (n₂.extended request.entries p).Settled request.leaderCommit n₃ events) :
      Transition cfg n (.receive sender (.appendEntries callback request) live) n₃
        (events ++ [.sent sender (.appendEntriesReply callback
          (n₃.produceAppendEntriesResponse cfg true 1))])
  | lowered {sender body live p} (hterm : n.currentTerm < body.term)
      (hreply : (∃ r, body = .requestVoteReply r) ∨ ∃ c r, body = .appendEntriesReply c r) :
      Transition cfg n (.receive sender body live) (n.lowered body.term p) []
  | voteCounted {sender live response} (hterm : response.header.term = n.currentTerm)
      (hrole : n.role ≠ .leader) (hgrant : response.voteGranted = true)
      (hwait : ¬(cfg.peerCount/2 < n.votes + 1 ∧ n.role = .candidate)) :
      Transition cfg n (.receive sender (.requestVoteReply response) live)
        { n with votes := n.votes + 1 } []
  | elected {sender live response p} (hterm : response.header.term = n.currentTerm)
      (hrole : n.role = .candidate) (hgrant : response.voteGranted = true)
      (hmajority : cfg.peerCount/2 < n.votes + 1) :
      Transition cfg n (.receive sender (.requestVoteReply response) live) (n.crowned p)
        [.becameLeader n.currentTerm n.logs.entries]
  | appendRejected {sender live response} (hterm : response.header.term = n.currentTerm)
      (hrole : n.role = .leader) (hsuccess : response.success = false) :
      Transition cfg n (.receive sender (.appendEntriesReply .appendEntries response) live)
        { n with nextIndex := n.nextIndex.insert response.header.memberId response.conflictIndex }
        []
  | appendKnown {sender live response} (hterm : response.header.term = n.currentTerm)
      (hrole : n.role = .leader) (hsuccess : response.success = true)
      (hknown : response.lastLogIndex ≤
        ((n.matchIndex.touch response.header.memberId).lookup response.header.memberId).getD 0) :
      Transition cfg n (.receive sender (.appendEntriesReply .appendEntries response) live)
        { n with matchIndex := n.matchIndex.touch response.header.memberId } []
  | committed {sender live response} (hterm : response.header.term = n.currentTerm)
      (hrole : n.role = .leader) (hsuccess : response.success = true)
      (hnew : ((n.matchIndex.touch response.header.memberId).lookup
        response.header.memberId).getD 0 < response.lastLogIndex) :
      Transition cfg n (.receive sender (.appendEntriesReply .appendEntries response) live)
        ((n.matched response.header.memberId response.lastLogIndex).commitMiddle live).1
        ((n.matched response.header.memberId response.lastLogIndex).commitMiddle live).2
  | queued {method reqPayload sessionId requestId request p} (hrole : n.role = .leader) :
      Transition cfg n (.client method reqPayload sessionId requestId)
        { (n.extended [⟨n.currentTerm,n.logs.lastLogIndex + 1,Wire.serialize request⟩] p) with
          matchIndex := n.matchIndex.insert cfg.memberId (n.logs.lastLogIndex + 1)
          nextIndex := n.nextIndex.insert cfg.memberId (n.logs.lastLogIndex + 2)
          stateMachine := n.stateMachine.produceApplyTask
            ⟨n.logs.lastLogIndex + 1,sessionId,requestId,request⟩ }
        (.queued ⟨n.logs.lastLogIndex + 1,sessionId,requestId,request⟩
            ⟨n.currentTerm,n.logs.lastLogIndex + 1,Wire.serialize request⟩ ::
          cfg.broadcast (.appendEntries .appendEntries
            { ((n.extended [⟨n.currentTerm,n.logs.lastLogIndex + 1,Wire.serialize request⟩]
                p).produceAppendEntriesRequest cfg) with
              entries := [⟨n.currentTerm,n.logs.lastLogIndex + 1,Wire.serialize request⟩] }) ++
          [.answered sessionId requestId (.ok none)])

section Inversion
variable [Protobuf] {cfg : RaftConfig} {n n' : RaftNode} {io : DiskOutcome} {events : List Event}

theorem startElectionTimeout_transition :
    Transition cfg n .electionTimeout (n.startElectionTimeout cfg).1
      (n.startElectionTimeout cfg).2 := by
  unfold startElectionTimeout
  split_ifs with hr
  · exact .idle (Or.inl rfl)
  · exact .election hr

theorem startHeartbeatTimeout_transition :
    Transition cfg n .heartbeatTimeout (n.startHeartbeatTimeout cfg).1
      (n.startHeartbeatTimeout cfg).2 := by
  unfold startHeartbeatTimeout
  split_ifs with hr
  · exact .idle (Or.inl rfl)
  · exact .heartbeat (not_not.mp hr)

theorem handleRequestVoteRequest_transition (sender : MemberId) (live : List ℕ)
    (request : RequestVoteRequest) :
    Transition cfg n (.receive sender (.requestVote request) live)
      (n.handleRequestVoteRequest cfg io request).1
      ((n.handleRequestVoteRequest cfg io request).1.voteEvents request
          (n.handleRequestVoteRequest cfg io request).2 ++
        [.sent sender (.requestVoteReply (n.handleRequestVoteRequest cfg io request).2)]) := by
  unfold handleRequestVoteRequest
  split_ifs with ht
  · exact .voteStale ht
  · have hobs := observeTerm_observed n io (Nat.le_of_not_lt ht)
    have hlog : upToDateLog (n.observeTerm io request.term).logs request =
        upToDateLog n.logs request := by
      obtain ⟨-,h⟩ | ⟨-,p,h⟩ := hobs
      · rw [h]
      · rw [h]
        rfl
    have hentries : (n.observeTerm io request.term).logs.entries = n.logs.entries := by
      obtain ⟨-,h⟩ | ⟨-,p,h⟩ := hobs
      · rw [h]
      · rw [h]
        rfl
    dsimp only
    rw [hlog]
    cases hg : (n.observeTerm io request.term).canVote request.candidateId &&
        upToDateLog n.logs request with
    | false => exact .voteDenied hobs hg
    | true =>
      rw [Bool.and_eq_true] at hg
      simp only [voteEvents, produceRequestVoteResponse, if_true, hentries]
      exact .voteGranted hobs hg.1 hg.2

theorem acceptEntries_transition {sender : MemberId} {live : List ℕ} {callback : Callback}
    {request : AppendEntriesRequest} {n₁ n₂ : RaftNode} {response : AppendEntriesResponse}
    (hobs : n.Observed request.term n₁) (hentries : request.entries ≠ [])
    (hprev : request.prevLogIndex ≤ n.logs.lastLogIndex)
    (hres : { n₁ with leaderId := some request.leaderId }.Resolved request.prevLogIndex
      request.prevLogTerm n₂)
    (h : n₂.acceptEntries cfg io request.entries request.leaderCommit =
      some (n',events,response)) :
    Transition cfg n (.receive sender (.appendEntries callback request) live) n'
      (events ++ [.sent sender (.appendEntriesReply callback response)]) := by
  unfold acceptEntries at h
  split at h
  · cases h
    exact .appendFailed hobs hentries hprev hres
  · rename_i logs hl
    obtain ⟨p,rfl⟩ := appendEntries_eq hl
    dsimp only at h
    split_ifs at h with hc
    · obtain ⟨r,hr,h⟩ := Option.bind_eq_some_iff.mp h
      cases h
      exact .appended hobs hentries hprev hres
        (.raised (n := n₂.extended request.entries p) hc (applyView_viewed hr))
    · cases h
      exact .appended hobs hentries hprev hres
        (.left (n := n₂.extended request.entries p) (Nat.le_of_not_lt hc))

theorem handleAppendEntriesRequest_transition {sender : MemberId} {live : List ℕ}
    {callback : Callback} {request : AppendEntriesRequest} {response : AppendEntriesResponse}
    (h : n.handleAppendEntriesRequest cfg io request = some (n',events,response)) :
    Transition cfg n (.receive sender (.appendEntries callback request) live) n'
      (events ++ [.sent sender (.appendEntriesReply callback response)]) := by
  unfold handleAppendEntriesRequest at h
  by_cases ht : request.term < n.currentTerm
  · rw [if_pos ht] at h
    cases h
    exact .appendStale ht
  rw [if_neg ht] at h
  have hobs := observeTerm_observed n io (Nat.le_of_not_lt ht)
  have hlast : (n.observeTerm io request.term).logs.lastLogIndex = n.logs.lastLogIndex := by
    obtain ⟨-,h⟩ | ⟨-,p,h⟩ := hobs
    · rw [h]
    · rw [h]
      rfl
  dsimp only at h
  by_cases he : request.entries.isEmpty
  · rw [if_pos he] at h
    obtain ⟨r,hr,h⟩ := Option.bind_eq_some_iff.mp h
    cases h
    exact .heartbeatReceived hobs (List.isEmpty_iff.mp he) (applyView_viewed hr)
  rw [if_neg he] at h
  have hentries : request.entries ≠ [] := by simpa using he
  split_ifs at h with hb
  · cases h
    have hb' : n.logs.lastLogIndex < request.prevLogIndex := hlast ▸ hb
    change Transition cfg n _ _ [.sent sender (.appendEntriesReply callback
      (produceAppendEntriesResponse cfg (n.observeTerm io request.term) false
        ((n.observeTerm io request.term).logs.lastLogIndex + 1)))]
    rw [hlast]
    exact .appendBeyond hobs hentries hb'
  · obtain ⟨n₂,hn,h⟩ := Option.bind_eq_some_iff.mp h
    exact acceptEntries_transition hobs hentries (by rw [← hlast]; exact Nat.le_of_not_lt hb)
      (resolveConflict_resolved hn) h

/-- A callback that learns of a larger term steps down, whatever term it writes to the disk. -/
theorem stepDown_transition {sender : MemberId} {body : Body} {live : List ℕ} {persisted : ℕ}
    (hterm : n.currentTerm < body.term)
    (hreply : (∃ r, body = .requestVoteReply r) ∨ ∃ c r, body = .appendEntriesReply c r) :
    Transition cfg n (.receive sender body live) (n.stepDown io body.term persisted) [] := by
  obtain ⟨p,hp⟩ := stepDown_eq n io body.term persisted
  rw [hp]
  exact .lowered hterm hreply

theorem handleRequestVoteResponse_transition (sender : MemberId) (live : List ℕ)
    (response : RequestVoteResponse) :
    Transition cfg n (.receive sender (.requestVoteReply response) live)
      (n.handleRequestVoteResponse cfg io response).1
      (n.handleRequestVoteResponse cfg io response).2 := by
  unfold handleRequestVoteResponse
  split_ifs with hs hh hl hg
  · exact .idle (Or.inl rfl)
  · exact stepDown_transition hh (Or.inl ⟨response,rfl⟩)
  · exact .idle (Or.inl rfl)
  · dsimp only
    split_ifs with hm
    · obtain ⟨p,hp⟩ := becomeLeader_eq { n with votes := n.votes + 1 } io
      rw [hp]
      exact .elected (by omega) hm.2 hg hm.1
    · exact .voteCounted (by omega) hl hg hm
  · exact .idle (Or.inl rfl)

theorem handleHeartbeatResponse_transition (sender : MemberId) (live : List ℕ)
    (response : AppendEntriesResponse) :
    Transition cfg n (.receive sender (.appendEntriesReply .heartbeat response) live)
      (n.handleHeartbeatResponse io response).1 (n.handleHeartbeatResponse io response).2 := by
  unfold handleHeartbeatResponse
  split_ifs with hs hh
  · exact .idle (Or.inl rfl)
  · exact stepDown_transition hh (Or.inr ⟨_,response,rfl⟩)
  · exact .idle (Or.inl rfl)

theorem handleAppendEntriesResponse_transition (sender : MemberId) (live : List ℕ)
    (response : AppendEntriesResponse) :
    Transition cfg n (.receive sender (.appendEntriesReply .appendEntries response) live)
      (n.handleAppendEntriesResponse io live response).1
      (n.handleAppendEntriesResponse io live response).2 := by
  unfold handleAppendEntriesResponse
  dsimp only
  split_ifs with hs hh hf hc
  · exact .idle (Or.inl rfl)
  · exact stepDown_transition hh (Or.inr ⟨_,response,rfl⟩)
  · exact .appendRejected (by omega) (by tauto) (by simpa using hf)
  · exact .committed (by omega) (by tauto) (by simpa using hf) hc
  · exact .appendKnown (by omega) (by tauto) (by simpa using hf) (Nat.le_of_not_lt hc)

theorem client_transition {method : KvMethod} {reqPayload : Bytes} {sessionId requestId : ℕ}
    (h : n.client cfg io reqPayload sessionId requestId method = some (n',events)) :
    Transition cfg n (.client method reqPayload sessionId requestId) n' events := by
  have hhandled := client_handled h
  cases hhandled with
  | unparsed _ | redirected _ _ | refused _ _ _ _ => exact .idle (Or.inr ⟨_,_,_,rfl⟩)
  | queued _ hrole _ _ _ => exact .queued hrole

theorem Transition.of_pair {input : Input} {r : RaftNode × List Event}
    (ht : Transition cfg n input r.1 r.2) (h : some r = some (n',events)) :
    Transition cfg n input n' events := by
  cases h
  exact ht

/-- Every defined step of a node is one of the transitions. -/
theorem step_transition {input : Input} (h : n.step cfg io input = some (n',events)) :
    Transition cfg n input n' events := by
  cases input with
  | electionTimeout => exact .of_pair startElectionTimeout_transition h
  | heartbeatTimeout => exact .of_pair startHeartbeatTimeout_transition h
  | receive sender body live =>
    cases body with
    | requestVote request =>
      exact .of_pair (handleRequestVoteRequest_transition sender live request) h
    | appendEntries callback request =>
      obtain ⟨r,hr,h⟩ := Option.bind_eq_some_iff.mp h
      cases h
      exact handleAppendEntriesRequest_transition hr
    | requestVoteReply response =>
      exact .of_pair (handleRequestVoteResponse_transition sender live response) h
    | appendEntriesReply callback response =>
      cases callback with
      | heartbeat => exact .of_pair (handleHeartbeatResponse_transition sender live response) h
      | appendEntries =>
        exact .of_pair (handleAppendEntriesResponse_transition sender live response) h
  | client method reqPayload sessionId requestId => exact client_transition h

end Inversion
end RaftNode
end Foskv.Raft
