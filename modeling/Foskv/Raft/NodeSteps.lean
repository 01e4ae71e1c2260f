import Foskv.Raft.Transitions

/-! What a step does to one aspect of a node: its term and role, its log, what it records and
what it sends. -/
namespace Foskv.Raft

theorem mem_single {cfg : RaftConfig} {receiver : MemberId} {body : Body} {e : Event} :
    e ∈ cfg.single receiver body ↔
      receiver ∈ cfg.peers.map Peer.memberId ∧ receiver ≠ cfg.memberId ∧
        e = .sent receiver body := by
  unfold RaftConfig.single
  split_ifs with hr
  · simp [hr]
  · rw [and_iff_right hr]
    cases hfind : cfg.findPeer receiver with
    | none =>
      have hnone : receiver ∉ cfg.peers.map Peer.memberId := by
        simpa [RaftConfig.findPeer] using hfind
      simp [hnone]
    | some peer =>
      obtain ⟨hpeer,hid⟩ := RaftConfig.mem_of_findPeer hfind
      have hmem : receiver ∈ cfg.peers.map Peer.memberId := List.mem_map.mpr ⟨peer,hpeer,hid⟩
      rw [and_iff_right hmem, List.mem_singleton, hid]

namespace RaftNode

/-- The fields an election works with are the same. -/
structure SameStanding (n n' : RaftNode) : Prop where
  term : n'.currentTerm = n.currentTerm
  role : n'.role = n.role
  votes : n'.votes = n.votes
  votedFor : n'.votedFor = n.votedFor

namespace SameStanding

theorem refl (n : RaftNode) : n.SameStanding n := ⟨rfl,rfl,rfl,rfl⟩

theorem trans {n₁ n₂ n₃ : RaftNode} (h : n₁.SameStanding n₂) (h' : n₂.SameStanding n₃) :
    n₁.SameStanding n₃ :=
  ⟨h'.term.trans h.term,h'.role.trans h.role,h'.votes.trans h.votes,
    h'.votedFor.trans h.votedFor⟩

end SameStanding

theorem raiseCommit_eq (n : RaftNode) (leaderCommit : ℕ) :
    ∃ c, n.raiseCommit leaderCommit = { n with commitIndex := c } := by
  unfold raiseCommit
  split_ifs
  · exact ⟨_,rfl⟩
  · exact ⟨n.commitIndex,rfl⟩

section RaiseCommit
variable (n : RaftNode) (leaderCommit : ℕ)

@[simp] theorem raiseCommit_logs : (n.raiseCommit leaderCommit).logs = n.logs := by
  unfold raiseCommit
  split_ifs <;> rfl

@[simp] theorem raiseCommit_matchIndex :
    (n.raiseCommit leaderCommit).matchIndex = n.matchIndex := by
  unfold raiseCommit
  split_ifs <;> rfl

end RaiseCommit

section Applied
variable [Protobuf] {n n' : RaftNode} {events : List Event}

theorem mem_appliedEvents {start : ℕ} {entries : List LogEntry} {e : Event}
    (h : e ∈ appliedEvents start entries) : ∃ index request, e = .applied index request := by
  obtain ⟨x,-,hx⟩ := List.mem_filterMap.mp h
  obtain ⟨request,-,rfl⟩ := Option.map_eq_some_iff.mp hx
  exact ⟨_,_,rfl⟩

theorem Viewed.eq (h : n.Viewed n' events) :
    ∃ sm la, n' = { n with stateMachine := sm, lastApplied := la } := by
  cases h with
  | unchanged _ => exact ⟨_,_,rfl⟩
  | applied _ _ => exact ⟨_,_,rfl⟩

theorem Viewed.mem_events (h : n.Viewed n' events) {e : Event} (he : e ∈ events) :
    ∃ index request, e = .applied index request := by
  cases h with
  | unchanged _ => simp at he
  | applied _ _ => exact mem_appliedEvents he

theorem Settled.eq {leaderCommit : ℕ} (h : n.Settled leaderCommit n' events) :
    ∃ sm la c, n' = { n with stateMachine := sm, lastApplied := la, commitIndex := c } := by
  cases h with
  | left _ => exact ⟨_,_,_,rfl⟩
  | raised _ hview =>
    obtain ⟨sm,la,rfl⟩ := hview.eq
    obtain ⟨c,hc⟩ := raiseCommit_eq n leaderCommit
    exact ⟨sm,la,c,by rw [hc]⟩

theorem Settled.mem_events {leaderCommit : ℕ} (h : n.Settled leaderCommit n' events) {e : Event}
    (he : e ∈ events) : ∃ index request, e = .applied index request := by
  cases h with
  | left _ => simp at he
  | raised _ hview => exact hview.mem_events he

omit [Protobuf] in
/-- What the commit of a leader shows. -/
theorem mem_commitMiddle {live : List ℕ} {e : Event} (h : e ∈ (n.commitMiddle live).2) :
    ∃ done ∈ (n.stateMachine.apply n.matchIndex.middle).2,
      e = .executed done.1 (n.logs.entryAt done.1.index).toOption ∨
      e = .applied done.1.index done.1.request ∨
      e = .replied n.currentTerm done.1 done.2 := by
  obtain ⟨es,hes,he⟩ := List.mem_flatten.mp h
  obtain ⟨done,hdone,rfl⟩ := List.mem_map.mp hes
  refine ⟨done,hdone,?_⟩
  simp only [taskEvents, List.mem_append, List.mem_cons, List.not_mem_nil, or_false] at he
  obtain (he | he) | he := he
  · exact Or.inl he
  · exact Or.inr (Or.inl he)
  · split_ifs at he
    · exact Or.inr (Or.inr (List.mem_singleton.mp he))
    · simp at he

omit [Protobuf] in
theorem Resolved.eq {prevLogIndex prevLogTerm : ℕ} (h : n.Resolved prevLogIndex prevLogTerm n') :
    ∃ old p, n' = { n with logs := { n.logs with entries := old, persister := p } } ∧
      (old = n.logs.entries ∨ (n.logs.termAt prevLogIndex ≠ prevLogTerm ∧
        n.logs.firstIndex ≤ prevLogIndex ∧
        old = n.logs.entries.take (prevLogIndex - n.logs.firstIndex))) := by
  obtain rfl | ⟨ht,hr,p,rfl⟩ := h
  · exact ⟨_,_,rfl,Or.inl rfl⟩
  · exact ⟨_,p,rfl,Or.inr ⟨ht,hr.1,rfl⟩⟩

end Applied

theorem Observed.le {n : RaftNode} {term : ℕ} {n₁ : RaftNode} (h : n.Observed term n₁) :
    n.currentTerm ≤ term ∧ n₁.currentTerm = term := by
  obtain ⟨ht,rfl⟩ | ⟨ht,p,rfl⟩ := h
  · exact ⟨ht.le,ht⟩
  · exact ⟨ht.le,rfl⟩

/-- How a step moves the term, the role and the votes. -/
inductive Standing (cfg : RaftConfig) (n : RaftNode) : Input → RaftNode → List Event → Prop
  | kept {input n' events} (same : n.SameStanding n') : Standing cfg n input n' events
  | raised {sender body live n' events} (hterm : n.currentTerm < body.term)
      (term : n'.currentTerm = body.term) (role : n'.role = .follower) (votes : n'.votes = 0)
      (votedFor : n'.votedFor = none) : Standing cfg n (.receive sender body live) n' events
  | started {events} (hrole : n.role ≠ .leader)
      (hevent : .voted (n.currentTerm + 1) cfg.memberId n.logs.entries ∈ events) :
      Standing cfg n .electionTimeout (n.startElection cfg) events
  | counted {sender response live events} (hterm : response.header.term = n.currentTerm)
      (hrole : n.role ≠ .leader) (hgrant : response.voteGranted = true) :
      Standing cfg n (.receive sender (.requestVoteReply response) live)
        { n with votes := n.votes + 1 } events
  | elected {sender response live p events} (hterm : response.header.term = n.currentTerm)
      (hrole : n.role = .candidate) (hgrant : response.voteGranted = true)
      (hmajority : cfg.peerCount/2 < n.votes + 1)
      (hevent : .becameLeader n.currentTerm n.logs.entries ∈ events) :
      Standing cfg n (.receive sender (.requestVoteReply response) live) (n.crowned p) events

/-- What a request with entries leaves of the log before it appends: all of it, or what stands
before `prev_log_index` when the terms differ there. -/
def Trimmed (n : RaftNode) (request : AppendEntriesRequest) (old : List LogEntry) : Prop :=
  n.currentTerm ≤ request.term ∧ request.prevLogIndex ≤ n.logs.lastLogIndex ∧
    (old = n.logs.entries ∨ (n.logs.termAt request.prevLogIndex ≠ request.prevLogTerm ∧
      n.logs.firstIndex ≤ request.prevLogIndex ∧
      old = n.logs.entries.take (request.prevLogIndex - n.logs.firstIndex)))

/-- A view the node reads of its log above `lastApplied`, up to its new commit index. -/
def Reads (n n' : RaftNode) (entries : List LogEntry) : Prop :=
  ∃ view, n'.logs.entriesView (n.lastApplied + 1) n'.commitIndex = .ok view ∧
    view.read n'.logs.entries = some entries

/-- On this response a leader moves `match_index_`. -/
def Raises (n : RaftNode) (response : AppendEntriesResponse) : Prop :=
  response.header.term = n.currentTerm ∧ n.role = .leader ∧ response.success = true ∧
    ((n.matchIndex.touch response.header.memberId).lookup response.header.memberId).getD 0 <
      response.lastLogIndex

instance (n : RaftNode) (response : AppendEntriesResponse) : Decidable (n.Raises response) :=
  inferInstanceAs (Decidable (_ ∧ _ ∧ _ ∧ _))

/-- A leader on such a response, before it commits. -/
abbrev told (n : RaftNode) (response : AppendEntriesResponse) : RaftNode :=
  n.matched response.header.memberId response.lastLogIndex

/-- Where an event of a step comes from, and what held for it to happen. -/
inductive Origin [Protobuf] (cfg : RaftConfig) (n : RaftNode) : Input → RaftNode → Event → Prop
  | ownVote (hrole : n.role ≠ .leader) :
      Origin cfg n .electionTimeout (n.startElection cfg)
        (.voted (n.currentTerm + 1) cfg.memberId n.logs.entries)
  | requestVote {receiver} (hrole : n.role ≠ .leader)
      (hpeer : receiver ∈ cfg.peers.map Peer.memberId) (hne : receiver ≠ cfg.memberId) :
      Origin cfg n .electionTimeout (n.startElection cfg) (.sent receiver (.requestVote
        ⟨n.currentTerm + 1,cfg.memberId,n.logs.lastLogIndex,n.logs.lastLogTerm⟩))
  | reissued {receiver nextIndex} (hrole : n.role = .leader)
      (hpeer : receiver ∈ cfg.peers.map Peer.memberId) (hne : receiver ≠ cfg.memberId)
      (hnext : 0 < nextIndex ∧ nextIndex ≤ n.logs.lastLogIndex) :
      Origin cfg n .heartbeatTimeout { n with nextIndex := n.advanceNextIndex }
        (.sent receiver (.appendEntries .appendEntries (n.reissueRequest cfg nextIndex)))
  | heartbeat {receiver} (hrole : n.role = .leader)
      (hpeer : receiver ∈ cfg.peers.map Peer.memberId) (hne : receiver ≠ cfg.memberId) :
      Origin cfg n .heartbeatTimeout { n with nextIndex := n.advanceNextIndex }
        (.sent receiver (.appendEntries .heartbeat (n.produceAppendEntriesRequest cfg)))
  | voted {sender request live n'} (hobs : n.Observed request.term n')
      (hfree : n'.canVote request.candidateId = true) (hlog : upToDateLog n.logs request = true) :
      Origin cfg n (.receive sender (.requestVote request) live) n'
        (.voted request.term request.candidateId n.logs.entries)
  | voteReply {sender request live n' granted}
      (hgrant : granted = true → n.Observed request.term n' ∧
        n'.canVote request.candidateId = true ∧ upToDateLog n.logs request = true) :
      Origin cfg n (.receive sender (.requestVote request) live) n'
        (.sent sender (.requestVoteReply (n'.produceRequestVoteResponse cfg granted)))
  | appendReply {sender callback request live n' success conflictIndex}
      (hsuccess : success = true → n'.currentTerm = request.term ∧
        (request.entries ≠ [] →
          ∃ old, n.Trimmed request old ∧ n'.logs.entries = old ++ request.entries)) :
      Origin cfg n (.receive sender (.appendEntries callback request) live) n'
        (.sent sender (.appendEntriesReply callback
          (n'.produceAppendEntriesResponse cfg success conflictIndex)))
  | read {sender callback request live n' entries index command} (hread : n.Reads n' entries)
      (hmem : .applied index command ∈ appliedEvents (n.lastApplied + 1) entries) :
      Origin cfg n (.receive sender (.appendEntries callback request) live) n'
        (.applied index command)
  | becameLeader {sender response live p} (hterm : response.header.term = n.currentTerm)
      (hrole : n.role = .candidate) (hgrant : response.voteGranted = true)
      (hmajority : cfg.peerCount/2 < n.votes + 1) :
      Origin cfg n (.receive sender (.requestVoteReply response) live) (n.crowned p)
        (.becameLeader n.currentTerm n.logs.entries)
  | executed {sender response live done} (hraises : n.Raises response)
      (hdone : done ∈ (n.stateMachine.apply (n.told response).matchIndex.middle).2) :
      Origin cfg n (.receive sender (.appendEntriesReply .appendEntries response) live)
        ((n.told response).commitMiddle live).1
        (.executed done.1 (n.logs.entryAt done.1.index).toOption)
  | applied {sender response live done} (hraises : n.Raises response)
      (hdone : done ∈ (n.stateMachine.apply (n.told response).matchIndex.middle).2) :
      Origin cfg n (.receive sender (.appendEntriesReply .appendEntries response) live)
        ((n.told response).commitMiddle live).1 (.applied done.1.index done.1.request)
  | replied {sender response live done} (hraises : n.Raises response)
      (hdone : done ∈ (n.stateMachine.apply (n.told response).matchIndex.middle).2) :
      Origin cfg n (.receive sender (.appendEntriesReply .appendEntries response) live)
        ((n.told response).commitMiddle live).1 (.replied n.currentTerm done.1 done.2)
  | queued {method reqPayload n' sessionId requestId request} (hrole : n.role = .leader)
      (hkept : n'.role = .leader ∧ n'.currentTerm = n.currentTerm)
      (hlog : n'.logs.entries = n.logs.entries ++
        [⟨n.currentTerm,n.logs.lastLogIndex + 1,Wire.serialize request⟩]) :
      Origin cfg n (.client method reqPayload sessionId requestId) n'
        (.queued ⟨n.logs.lastLogIndex + 1,sessionId,requestId,request⟩
          ⟨n.currentTerm,n.logs.lastLogIndex + 1,Wire.serialize request⟩)
  | replicated {input n' receiver entry p} (hrole : n.role = .leader)
      (hkept : n'.role = .leader ∧ n'.currentTerm = n.currentTerm)
      (hpeer : receiver ∈ cfg.peers.map Peer.memberId) (hne : receiver ≠ cfg.memberId)
      (hlog : n'.logs.entries = n.logs.entries ++ [entry]) :
      Origin cfg n input n' (.sent receiver (.appendEntries .appendEntries
        { ((n.extended [entry] p).produceAppendEntriesRequest cfg) with entries := [entry] }))
  | answered {input n' sessionId requestId result} :
      Origin cfg n input n' (.answered sessionId requestId result)

theorem Origin.voted_term [Protobuf] {cfg : RaftConfig} {n n' : RaftNode} {input : Input}
    {term : ℕ} {candidate : MemberId} {log : List LogEntry}
    (h : Origin cfg n input n' (.voted term candidate log)) :
    term = n'.currentTerm ∧ log = n.logs.entries := by
  cases h with
  | ownVote _ => exact ⟨rfl,rfl⟩
  | voted hobs _ _ => exact ⟨hobs.le.2.symm,rfl⟩

theorem Origin.elected_log [Protobuf] {cfg : RaftConfig} {n n' : RaftNode} {input : Input}
    {term : ℕ} {log : List LogEntry} (h : Origin cfg n input n' (.becameLeader term log)) :
    log = n.logs.entries := by
  cases h with
  | becameLeader _ _ _ _ => rfl

/-- A message carries a term the node has reached. -/
theorem Origin.sent_term [Protobuf] {cfg : RaftConfig} {n n' : RaftNode} {input : Input}
    {receiver : MemberId} {body : Body} (h : Origin cfg n input n' (.sent receiver body))
    (hle : n.currentTerm ≤ n'.currentTerm) : body.term ≤ n'.currentTerm := by
  cases h with
  | requestVote _ _ _ => exact le_rfl
  | reissued _ _ _ _ => exact le_rfl
  | heartbeat _ _ _ => exact le_rfl
  | replicated _ _ _ _ _ => exact hle
  | voteReply _ => exact le_rfl
  | appendReply _ => exact le_rfl

/-- Nothing that the log of a leader records. -/
def Silent (events : List Event) : Prop :=
  ∀ e ∈ events, (∀ term log, e ≠ .becameLeader term log) ∧ ∀ task entry, e ≠ .queued task entry

section Silent
variable {e : Event} {es es' : List Event}

theorem silent_nil : Silent [] := by simp [Silent]

theorem silent_cons : Silent (e :: es) ↔ ((∀ term log, e ≠ .becameLeader term log) ∧
    ∀ task entry, e ≠ .queued task entry) ∧ Silent es := List.forall_mem_cons

theorem silent_append : Silent (es ++ es') ↔ Silent es ∧ Silent es' := List.forall_mem_append

theorem silent_sent {receiver : MemberId} {body : Body} : Silent [.sent receiver body] := by
  simp [Silent]

theorem silent_broadcast {cfg : RaftConfig} {body : Body} : Silent (cfg.broadcast body) := by
  intro e he
  obtain ⟨r,-,-,rfl⟩ := mem_broadcast.mp he
  simp

theorem silent_of_applied (h : ∀ e ∈ es, ∃ index request, e = .applied index request) :
    Silent es := by
  intro e he
  obtain ⟨i,r,rfl⟩ := h e he
  simp

end Silent

/-- How a step changes the log, and what the step records of it. -/
inductive LogChange [Protobuf] (n : RaftNode) : Input → RaftNode → List Event → Prop
  | kept {input n' events} (h : n'.logs.entries = n.logs.entries) (hsilent : Silent events) :
      LogChange n input n' events
  | elected {sender response live p} (hrole : n.role = .candidate) :
      LogChange n (.receive sender (.requestVoteReply response) live) (n.crowned p)
        [.becameLeader n.currentTerm n.logs.entries]
  | received {sender callback request live n' events old} (hold : n.Trimmed request old)
      (hterm : n'.currentTerm = request.term) (hentries : request.entries ≠ [])
      (h : n'.logs.entries = old ∨ n'.logs.entries = old ++ request.entries)
      (hsilent : Silent events) :
      LogChange n (.receive sender (.appendEntries callback request) live) n' events
  | queued {method reqPayload sessionId requestId request n' rest} (hrole : n.role = .leader)
      (hterm : n'.currentTerm = n.currentTerm) (hrole' : n'.role = .leader)
      (h : n'.logs.entries = n.logs.entries ++
        [⟨n.currentTerm,n.logs.lastLogIndex + 1,Wire.serialize request⟩])
      (hsilent : Silent rest) :
      LogChange n (.client method reqPayload sessionId requestId) n'
        (.queued ⟨n.logs.lastLogIndex + 1,sessionId,requestId,request⟩
          ⟨n.currentTerm,n.logs.lastLogIndex + 1,Wire.serialize request⟩ :: rest)

/-- Where an entry of `match_index_` comes from. -/
inductive MatchSource [Protobuf] (cfg : RaftConfig) (n : RaftNode) (m : MemberId) (v : ℕ) :
    Input → List Event → Prop
  | old {input events} (h : ⟨m,v⟩ ∈ n.matchIndex.entries) : MatchSource cfg n m v input events
  | zero {input events} (h : v = 0) : MatchSource cfg n m v input events
  | own {input events task entry} (hrole : n.role = .leader) (hself : m = cfg.memberId)
      (hmem : .queued task entry ∈ events) (hterm : entry.term = n.currentTerm)
      (hindex : entry.index = v) : MatchSource cfg n m v input events
  | reply {sender response live events} (hterm : response.header.term = n.currentTerm)
      (hrole : n.role = .leader) (hsuccess : response.success = true)
      (hmember : m = response.header.memberId) (hindex : v = response.lastLogIndex) :
      MatchSource cfg n m v
        (.receive sender (.appendEntriesReply .appendEntries response) live) events

section Aspects
variable {cfg : RaftConfig} {n n' : RaftNode} {input : Input} {events : List Event}

/-- Seeing a term leaves everything but the standing and the store. -/
theorem Observed.eq {term : ℕ} {n₁ : RaftNode} (h : n.Observed term n₁) :
    ∃ r v vf p, n₁ = { n with
      role := r
      votes := v
      votedFor := vf
      currentTerm := term
      logs := { n.logs with persister := p } } := by
  obtain ⟨rfl,rfl⟩ | ⟨ht,p,rfl⟩ := h
  · exact ⟨_,_,_,_,rfl⟩
  · exact ⟨_,_,_,p,rfl⟩

theorem Observed.standing {term : ℕ} {n₁ : RaftNode} {sender : MemberId} {body : Body}
    {live : List ℕ} (h : n.Observed term n₁) (hb : body.term = term)
    (same : n₁.SameStanding n') :
    Standing cfg n (.receive sender body live) n' events := by
  subst hb
  obtain ⟨ht,rfl⟩ | ⟨ht,p,rfl⟩ := h
  · exact .kept same
  · exact .raised ht same.term same.role same.votes same.votedFor

variable [Protobuf]

theorem Transition.standing (h : Transition cfg n input n' events) :
    Standing cfg n input n' events := by
  cases h with
  | idle _ => exact .kept (.refl n)
  | election hrole => exact .started hrole List.mem_cons_self
  | heartbeat _ => exact .kept ⟨rfl,rfl,rfl,rfl⟩
  | voteStale _ => exact .kept (.refl n)
  | voteDenied hobs _ => exact hobs.standing rfl (.refl n')
  | voteGranted hobs _ _ => exact hobs.standing rfl (.refl n')
  | appendStale _ => exact .kept (.refl n)
  | heartbeatReceived hobs _ hview =>
    obtain ⟨sm,la,rfl⟩ := hview.eq
    refine hobs.standing rfl ?_
    obtain ⟨c,hc⟩ := raiseCommit_eq _ _
    rw [hc]
    exact ⟨rfl,rfl,rfl,rfl⟩
  | appendBeyond hobs _ _ => exact hobs.standing rfl ⟨rfl,rfl,rfl,rfl⟩
  | appendFailed hobs _ _ hres =>
    obtain ⟨old,p,rfl,-⟩ := hres.eq
    exact hobs.standing rfl ⟨rfl,rfl,rfl,rfl⟩
  | appended hobs _ _ hres hset =>
    obtain ⟨sm,la,c,rfl⟩ := hset.eq
    obtain ⟨old,p,rfl,-⟩ := hres.eq
    exact hobs.standing rfl ⟨rfl,rfl,rfl,rfl⟩
  | lowered hterm _ => exact .raised hterm rfl rfl rfl rfl
  | voteCounted hterm hrole hgrant _ => exact .counted hterm hrole hgrant
  | elected hterm hrole hgrant hmajority =>
    exact .elected hterm hrole hgrant hmajority List.mem_cons_self
  | appendRejected _ _ _ => exact .kept ⟨rfl,rfl,rfl,rfl⟩
  | appendKnown _ _ _ _ => exact .kept ⟨rfl,rfl,rfl,rfl⟩
  | committed _ _ _ _ => exact .kept ⟨rfl,rfl,rfl,rfl⟩
  | queued _ => exact .kept ⟨rfl,rfl,rfl,rfl⟩

omit [Protobuf] in
theorem Standing.term_le (h : Standing cfg n input n' events) : n.currentTerm ≤ n'.currentTerm := by
  cases h with
  | kept same => exact same.term.ge
  | raised hterm term _ _ _ => omega
  | started _ _ => exact Nat.le_succ _
  | counted _ _ _ => exact le_rfl
  | elected _ _ _ _ _ => exact le_rfl

/-- Terms only grow. -/
theorem Transition.term_le (h : Transition cfg n input n' events) :
    n.currentTerm ≤ n'.currentTerm :=
  h.standing.term_le

/-- Whoever leads after a step led this term before it or has just become its leader. -/
theorem Transition.leads (h : Transition cfg n input n' events) (hrole : n'.role = .leader) :
    (n.role = .leader ∧ n'.currentTerm = n.currentTerm) ∨
      .becameLeader n'.currentTerm n.logs.entries ∈ events := by
  have hst := h.standing
  cases hst with
  | kept same => exact Or.inl ⟨same.role ▸ hrole,same.term⟩
  | raised _ _ role _ _ => simp [role] at hrole
  | started _ _ => cases hrole
  | counted _ hnot _ => exact absurd hrole hnot
  | elected _ _ _ _ hevent => exact Or.inr hevent

/-- A leader leads to the end of its term. -/
theorem Transition.stays_leader (h : Transition cfg n input n' events) (hrole : n.role = .leader)
    (hterm : n'.currentTerm = n.currentTerm) : n'.role = .leader := by
  have hst := h.standing
  cases hst with
  | kept same => exact same.role.trans hrole
  | raised _ _ _ _ _ => omega
  | started hnot _ => exact absurd hrole hnot
  | counted _ hnot _ => exact absurd hrole hnot
  | elected _ _ _ _ _ => rfl

omit [Protobuf] in
theorem mem_reissue {memberId : MemberId} {nextIndex : ℕ} {e : Event} :
    e ∈ n.reissue cfg memberId nextIndex ↔
      (0 < nextIndex ∧ nextIndex ≤ n.logs.lastLogIndex) ∧
        (memberId ∈ cfg.peers.map Peer.memberId ∧ memberId ≠ cfg.memberId) ∧
        e = .sent memberId (.appendEntries .appendEntries (n.reissueRequest cfg nextIndex)) := by
  unfold reissue
  split_ifs with hn
  · have hnext : 0 < nextIndex ∧ nextIndex ≤ n.logs.lastLogIndex := ⟨by omega,hn.1⟩
    rw [mem_single, and_iff_right hnext, and_assoc]
  · refine iff_of_false (by simp) fun h => hn ⟨h.1.2,by omega⟩

theorem Viewed.reads (h : n.Viewed n' events) {e : Event} (he : e ∈ events) :
    ∃ entries, n.Reads n' entries ∧ e ∈ appliedEvents (n.lastApplied + 1) entries := by
  cases h with
  | unchanged _ => simp at he
  | applied hview hread => exact ⟨_,⟨_,hview,hread⟩,he⟩

theorem Settled.reads {leaderCommit : ℕ} (h : n.Settled leaderCommit n' events) {e : Event}
    (he : e ∈ events) :
    ∃ entries, n.Reads n' entries ∧ e ∈ appliedEvents (n.lastApplied + 1) entries := by
  cases h with
  | left _ => simp at he
  | raised _ hview =>
    obtain ⟨c,hc⟩ := raiseCommit_eq n leaderCommit
    rw [hc] at hview
    exact hview.reads he

/-- A heartbeat timer sends what members lag behind, and heartbeats. -/
theorem Origin.of_heartbeat (hrole : n.role = .leader) {e : Event}
    (he : e ∈ (n.nextIndex.entries.map fun x => n.reissue cfg x.1 x.2).flatten ++
      cfg.broadcast (.appendEntries .heartbeat (n.produceAppendEntriesRequest cfg))) :
    Origin cfg n .heartbeatTimeout { n with nextIndex := n.advanceNextIndex } e := by
  obtain he | he := List.mem_append.mp he
  · obtain ⟨es,hes,he⟩ := List.mem_flatten.mp he
    obtain ⟨x,-,rfl⟩ := List.mem_map.mp hes
    obtain ⟨hnext,hpeer,rfl⟩ := mem_reissue.mp he
    exact .reissued hrole hpeer.1 hpeer.2 hnext
  · obtain ⟨r,hr,hne,rfl⟩ := mem_broadcast.mp he
    exact .heartbeat hrole hr hne

/-- A heartbeat request applies what it commits, and is answered. -/
theorem Origin.of_viewed {sender : MemberId} {live : List ℕ} {callback : Callback}
    {request : AppendEntriesRequest} {n₁ n₂ : RaftNode} {e : Event}
    (hobs : n.Observed request.term n₁) (hempty : request.entries = [])
    (hview : ({ n₁ with leaderId := some request.leaderId }.raiseCommit
      request.leaderCommit).Viewed n₂ events)
    (he : e ∈ events ++ [.sent sender (.appendEntriesReply callback
      (n₂.produceAppendEntriesResponse cfg true 1))]) :
    Origin cfg n (.receive sender (.appendEntries callback request) live) n₂ e := by
  obtain ⟨c,hc⟩ := raiseCommit_eq { n₁ with leaderId := some request.leaderId }
    request.leaderCommit
  rw [hc] at hview
  obtain he | he := List.mem_append.mp he
  · obtain ⟨entries,hread,hmem⟩ := hview.reads he
    obtain ⟨index,command,rfl⟩ := hview.mem_events he
    obtain ⟨r,v,vf,p,rfl⟩ := hobs.eq
    exact .read hread hmem
  · obtain rfl := List.mem_singleton.mp he
    obtain ⟨sm,la,rfl⟩ := hview.eq
    exact .appendReply fun _ => ⟨hobs.le.2,fun h => absurd hempty h⟩

/-- Entries are appended, what they commit is applied, and the request is answered. -/
theorem Origin.of_settled {sender : MemberId} {live : List ℕ} {callback : Callback}
    {request : AppendEntriesRequest} {n₁ n₂ n₃ : RaftNode} {p : Persister} {e : Event}
    (hobs : n.Observed request.term n₁) (hprev : request.prevLogIndex ≤ n.logs.lastLogIndex)
    (hres : { n₁ with leaderId := some request.leaderId }.Resolved request.prevLogIndex
      request.prevLogTerm n₂)
    (hset : (n₂.extended request.entries p).Settled request.leaderCommit n₃ events)
    (he : e ∈ events ++ [.sent sender (.appendEntriesReply callback
      (n₃.produceAppendEntriesResponse cfg true 1))]) :
    Origin cfg n (.receive sender (.appendEntries callback request) live) n₃ e := by
  obtain ⟨old,q,rfl,hold⟩ := hres.eq
  obtain he | he := List.mem_append.mp he
  · obtain ⟨entries,hread,hmem⟩ := hset.reads he
    obtain ⟨index,command,rfl⟩ := hset.mem_events he
    obtain ⟨r,v,vf,p',rfl⟩ := hobs.eq
    exact .read hread hmem
  · obtain rfl := List.mem_singleton.mp he
    obtain ⟨sm,la,c,rfl⟩ := hset.eq
    have hle := hobs.le
    obtain ⟨r,v,vf,p',rfl⟩ := hobs.eq
    exact .appendReply fun _ => ⟨hle.2,fun _ => ⟨old,⟨hle.1,hprev,hold⟩,rfl⟩⟩

/-- Every event of a step has its origin. -/
theorem Transition.origin (h : Transition cfg n input n' events) {e : Event}
    (he : e ∈ events) : Origin cfg n input n' e := by
  cases h with
  | idle hevents =>
    obtain rfl | ⟨_,_,_,rfl⟩ := hevents
    · simp at he
    · obtain rfl := List.mem_singleton.mp he
      exact .answered
  | election hrole =>
    obtain rfl | he := List.mem_cons.mp he
    · exact .ownVote hrole
    · obtain ⟨r,hr,hne,rfl⟩ := mem_broadcast.mp he
      exact .requestVote hrole hr hne
  | heartbeat hrole => exact .of_heartbeat hrole he
  | voteStale _ =>
    obtain rfl := List.mem_singleton.mp he
    exact .voteReply (by simp)
  | voteDenied _ _ =>
    obtain rfl := List.mem_singleton.mp he
    exact .voteReply (by simp)
  | voteGranted hobs hfree hlog =>
    simp only [List.mem_cons, List.not_mem_nil, or_false] at he
    obtain rfl | rfl := he
    · rw [hobs.le.2]
      exact .voted hobs hfree hlog
    · exact .voteReply fun _ => ⟨hobs,hfree,hlog⟩
  | appendStale _ =>
    obtain rfl := List.mem_singleton.mp he
    exact .appendReply (by simp)
  | heartbeatReceived hobs hempty hview => exact .of_viewed hobs hempty hview he
  | appendBeyond hobs _ _ =>
    obtain rfl := List.mem_singleton.mp he
    exact .appendReply (by simp)
  | appendFailed _ _ _ _ =>
    obtain rfl := List.mem_singleton.mp he
    exact .appendReply (by simp)
  | appended hobs _ hprev hres hset => exact .of_settled hobs hprev hres hset he
  | lowered _ _ => simp at he
  | voteCounted _ _ _ _ => simp at he
  | elected hterm hrole hgrant hmajority =>
    obtain rfl := List.mem_singleton.mp he
    exact .becameLeader hterm hrole hgrant hmajority
  | appendRejected _ _ _ => simp at he
  | appendKnown _ _ _ _ => simp at he
  | committed hterm hrole hsuccess hnew =>
    have hraises : n.Raises _ := ⟨hterm,hrole,hsuccess,hnew⟩
    obtain ⟨done,hdone,rfl | rfl | rfl⟩ := mem_commitMiddle he
    · exact .executed hraises hdone
    · exact .applied hraises hdone
    · exact .replied hraises hdone
  | queued hrole =>
    obtain he | he := List.mem_append.mp he
    · obtain rfl | he := List.mem_cons.mp he
      · exact .queued hrole ⟨hrole,rfl⟩ rfl
      · obtain ⟨r,hr,hne,rfl⟩ := mem_broadcast.mp he
        exact .replicated hrole ⟨hrole,rfl⟩ hr hne rfl
    · obtain rfl := List.mem_singleton.mp he
      exact .answered

/-- Heartbeats and client requests make a leader send AppendEntries requests: with the rest of its
log, or with the entry it has just put there. -/
theorem Transition.sentRequest (h : Transition cfg n input n' events) {receiver : MemberId}
    {callback : Callback} {request : AppendEntriesRequest}
    (he : .sent receiver (.appendEntries callback request) ∈ events) :
    (input = .heartbeatTimeout ∧ (request.entries = [] ∨
      ∃ nextIndex, 0 < nextIndex ∧ nextIndex ≤ n.logs.lastLogIndex ∧
        request = n.reissueRequest cfg nextIndex)) ∨
    (∃ method reqPayload sessionId requestId,
      input = .client method reqPayload sessionId requestId) ∧
    ∃ command p, request = { ((n.extended [⟨n.currentTerm,n.logs.lastLogIndex + 1,
        Wire.serialize (command : InternalRaftRequest)⟩] p).produceAppendEntriesRequest cfg) with
      entries := [⟨n.currentTerm,n.logs.lastLogIndex + 1,Wire.serialize command⟩] } := by
  cases h with
  | heartbeat hrole =>
    obtain he | he := List.mem_append.mp he
    · obtain ⟨es,hes,he⟩ := List.mem_flatten.mp he
      obtain ⟨x,-,rfl⟩ := List.mem_map.mp hes
      obtain ⟨hnext,-,heq⟩ := mem_reissue.mp he
      cases heq
      exact Or.inl ⟨rfl,Or.inr ⟨_,hnext.1,hnext.2,rfl⟩⟩
    · obtain ⟨_,-,-,heq⟩ := mem_broadcast.mp he
      cases heq
      exact Or.inl ⟨rfl,Or.inl rfl⟩
  | queued hrole =>
    obtain he | he := List.mem_append.mp he
    · obtain he | he := List.mem_cons.mp he
      · cases he
      · obtain ⟨_,-,-,heq⟩ := mem_broadcast.mp he
        cases heq
        exact Or.inr ⟨⟨_,_,_,_,rfl⟩,_,_,rfl⟩
    · simp at he
  | idle hevents =>
    obtain rfl | ⟨_,_,_,rfl⟩ := hevents <;> simp at he
  | election _ =>
    obtain he | he := List.mem_cons.mp he
    · cases he
    · obtain ⟨_,-,-,heq⟩ := mem_broadcast.mp he
      cases heq
  | heartbeatReceived hobs _ hview =>
    obtain he | he := List.mem_append.mp he
    · obtain ⟨_,_,heq⟩ := hview.mem_events he
      cases heq
    · simp at he
  | appended _ _ _ _ hset =>
    obtain he | he := List.mem_append.mp he
    · obtain ⟨_,_,heq⟩ := hset.mem_events he
      cases heq
    · simp at he
  | committed _ _ _ _ =>
    obtain ⟨done,-,heq | heq | heq⟩ := mem_commitMiddle he <;> cases heq
  | _ => simp at he

theorem Transition.logChange (h : Transition cfg n input n' events) :
    LogChange n input n' events := by
  cases h with
  | idle hevents =>
    refine .kept rfl ?_
    obtain rfl | ⟨_,_,_,rfl⟩ := hevents <;> simp [Silent]
  | election _ => exact .kept rfl (silent_cons.mpr ⟨by simp,silent_broadcast⟩)
  | heartbeat _ =>
    refine .kept rfl (silent_append.mpr ⟨?_,silent_broadcast⟩)
    intro e he
    obtain ⟨es,hes,he⟩ := List.mem_flatten.mp he
    obtain ⟨x,-,rfl⟩ := List.mem_map.mp hes
    obtain ⟨-,-,rfl⟩ := mem_reissue.mp he
    simp
  | voteStale _ => exact .kept rfl silent_sent
  | voteDenied hobs _ =>
    obtain ⟨r,v,vf,p,rfl⟩ := hobs.eq
    exact .kept rfl silent_sent
  | voteGranted hobs _ _ =>
    obtain ⟨r,v,vf,p,rfl⟩ := hobs.eq
    exact .kept rfl (silent_cons.mpr ⟨by simp,silent_sent⟩)
  | appendStale _ => exact .kept rfl silent_sent
  | heartbeatReceived hobs _ hview =>
    have hsilent := silent_of_applied fun e he => hview.mem_events he
    obtain ⟨sm,la,rfl⟩ := hview.eq
    obtain ⟨r,v,vf,p,rfl⟩ := hobs.eq
    exact .kept (by simp) (silent_append.mpr ⟨hsilent,silent_sent⟩)
  | appendBeyond hobs _ _ =>
    obtain ⟨r,v,vf,p,rfl⟩ := hobs.eq
    exact .kept rfl silent_sent
  | appendFailed hobs hentries hprev hres =>
    obtain ⟨old,q,rfl,hold⟩ := hres.eq
    have hle := hobs.le.1
    obtain ⟨r,v,vf,p,rfl⟩ := hobs.eq
    exact .received ⟨hle,hprev,hold⟩ rfl hentries (Or.inl rfl) silent_sent
  | appended hobs hentries hprev hres hset =>
    have hsilent := silent_of_applied fun e he => hset.mem_events he
    obtain ⟨old,q,rfl,hold⟩ := hres.eq
    obtain ⟨sm,la,c,rfl⟩ := hset.eq
    have hle := hobs.le.1
    obtain ⟨r,v,vf,p,rfl⟩ := hobs.eq
    exact .received ⟨hle,hprev,hold⟩ rfl hentries (Or.inr rfl)
      (silent_append.mpr ⟨hsilent,silent_sent⟩)
  | lowered _ _ => exact .kept rfl silent_nil
  | voteCounted _ _ _ _ => exact .kept rfl silent_nil
  | elected _ hrole _ _ => exact .elected hrole
  | appendRejected _ _ _ => exact .kept rfl silent_nil
  | appendKnown _ _ _ _ => exact .kept rfl silent_nil
  | committed _ _ _ _ =>
    refine .kept rfl fun e he => ?_
    obtain ⟨done,-,rfl | rfl | rfl⟩ := mem_commitMiddle he <;> simp
  | queued hrole =>
    exact .queued hrole rfl hrole rfl (silent_append.mpr ⟨silent_broadcast,by simp [Silent]⟩)

omit [Protobuf] in
theorem mem_insert_entries {M : IndexMap} {k m : MemberId} {w v : ℕ}
    (h : ⟨m,v⟩ ∈ (M.insert k w).entries) : m = k ∧ v = w ∨ ⟨m,v⟩ ∈ M.entries := by
  rw [AList.entries_insert] at h
  obtain h | h := List.mem_cons.mp h
  · cases h
    exact Or.inl ⟨rfl,rfl⟩
  · exact Or.inr ((List.kerase_sublist k M.entries).subset h)

omit [Protobuf] in
theorem mem_touch_entries {M : IndexMap} {k m : MemberId} {v : ℕ}
    (h : ⟨m,v⟩ ∈ (M.touch k).entries) : v = 0 ∨ ⟨m,v⟩ ∈ M.entries := by
  unfold IndexMap.touch at h
  split at h
  · exact (mem_insert_entries h).imp And.right id
  · exact Or.inr h

/-- The map only changes by an own append and by a successful response of the own term. -/
theorem Transition.matchSource (h : Transition cfg n input n' events) {m : MemberId} {v : ℕ}
    (hmem : ⟨m,v⟩ ∈ n'.matchIndex.entries) : MatchSource cfg n m v input events := by
  cases h with
  | voteDenied hobs _ | voteGranted hobs _ _ =>
    obtain ⟨r,v,vf,p,rfl⟩ := hobs.eq
    exact .old hmem
  | appendBeyond hobs _ _ =>
    obtain ⟨r,v,vf,p,rfl⟩ := hobs.eq
    exact .old hmem
  | heartbeatReceived hobs _ hview =>
    obtain ⟨sm,la,rfl⟩ := hview.eq
    obtain ⟨r,v,vf,p,rfl⟩ := hobs.eq
    rw [raiseCommit_matchIndex] at hmem
    exact .old hmem
  | appendFailed hobs _ _ hres =>
    obtain ⟨old,q,rfl,-⟩ := hres.eq
    obtain ⟨r,v,vf,p,rfl⟩ := hobs.eq
    exact .old hmem
  | appended hobs _ _ hres hset =>
    obtain ⟨old,q,rfl,-⟩ := hres.eq
    obtain ⟨sm,la,c,rfl⟩ := hset.eq
    obtain ⟨r,v,vf,p,rfl⟩ := hobs.eq
    exact .old hmem
  | appendKnown _ _ _ _ => exact (mem_touch_entries hmem).elim .zero .old
  | committed hterm hrole hsuccess _ =>
    obtain ⟨hm,hv⟩ | hmem := mem_insert_entries hmem
    · exact .reply hterm hrole hsuccess hm hv
    · exact (mem_touch_entries hmem).elim .zero .old
  | queued hrole =>
    obtain ⟨hm,hv⟩ | hmem := mem_insert_entries hmem
    · exact .own hrole hm List.mem_cons_self rfl hv.symm
    · exact .old hmem
  | _ => exact .old hmem

theorem Transition.firstIndex (h : Transition cfg n input n' events) :
    n'.logs.firstIndex = n.logs.firstIndex := by
  cases h with
  | voteDenied hobs _ | voteGranted hobs _ _ =>
    obtain ⟨r,v,vf,p,rfl⟩ := hobs.eq
    rfl
  | appendBeyond hobs _ _ =>
    obtain ⟨r,v,vf,p,rfl⟩ := hobs.eq
    rfl
  | heartbeatReceived hobs _ hview =>
    obtain ⟨sm,la,rfl⟩ := hview.eq
    obtain ⟨r,v,vf,p,rfl⟩ := hobs.eq
    simp
  | appendFailed hobs _ _ hres =>
    obtain ⟨old,q,rfl,-⟩ := hres.eq
    obtain ⟨r,v,vf,p,rfl⟩ := hobs.eq
    rfl
  | appended hobs _ _ hres hset =>
    obtain ⟨old,q,rfl,-⟩ := hres.eq
    obtain ⟨sm,la,c,rfl⟩ := hset.eq
    obtain ⟨r,v,vf,p,rfl⟩ := hobs.eq
    rfl
  | _ => rfl

end Aspects
end RaftNode
end Foskv.Raft
