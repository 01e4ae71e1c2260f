import Foskv.Raft.DiskLog
import Foskv.Raft.Elections

/-! The vote record on disk, and the terms of a member across crashes. -/
namespace Foskv.Raft

section Record

theorem persistStateKey_ne_lastIndexKey : persistStateKey ≠ lastIndexKey := by decide

theorem persistStateKey_ne_firstIndexKey : persistStateKey ≠ firstIndexKey := by decide

namespace Persister

/-- The bytes of the vote record. -/
def record (p : Persister) : Option Bytes := p.st.get persistStateKey

theorem record_batchWrite (p : Persister) (wb : List Storage.WriteOp)
    (h : ∀ op ∈ wb, persistStateKey ≠ op.key) :
    (⟨p.st.batchWrite wb⟩ : Persister).record = p.record :=
  p.st.get_batchWrite_of_forall_ne wb h

variable [Protobuf]

theorem recoverState_of_record {p : Persister} {state : PersistState}
    (h : p.record = some (Wire.serialize state)) : p.recoverState = .ok state := by
  unfold record at h
  simp [recoverState, h]

theorem persistBatch_record {p p' : Persister} {accepted : Bool} {entries : List LogEntry}
    (h : p.persistBatch accepted entries = .ok p') : p'.record = p.record := by
  unfold persistBatch at h
  split at h
  · cases h
  · dsimp only at h
    split_ifs at h
    obtain rfl := Except.ok.inj h
    exact get_persistBatch p.st _ (c := 112) (by decide) (by decide)
      persistStateKey_ne_lastIndexKey

omit [Protobuf] in
theorem truncateBatch_record {p p' : Persister} {accepted : Bool} {startIndex endIndex : ℕ}
    (h : p.truncateBatch accepted startIndex endIndex = some (.ok p')) :
    p'.record = p.record :=
  get_truncateBatch (c := 112) (by decide) (by decide) h

theorem recoverEntries_record {p p' : Persister} {accepted : Bool} {entries : List LogEntry}
    (h : p.recoverEntries accepted = .ok (p',entries)) : p'.record = p.record := by
  unfold recoverEntries at h
  split at h
  · dsimp only at h
    split_ifs at h
    cases h
    refine record_batchWrite p _ fun op hop => ?_
    simp only [List.mem_cons, List.not_mem_nil, or_false] at hop
    obtain rfl | rfl := hop
    · exact persistStateKey_ne_firstIndexKey
    · exact persistStateKey_ne_lastIndexKey
  · split at h
    · split_ifs at h
      · cases h
        exact Storage.get_put_of_ne _ _ persistStateKey_ne_firstIndexKey
      · cases h
        rfl
      · dsimp only at h
        split_ifs at h
        generalize parseEntries _ = r at h
        cases r with
        | error _ => cases h
        | ok _ =>
          cases h
          rfl
    · cases h
  · cases h

end Persister
end Record

namespace RaftNode

/-- The inputs on which a node raises its term without writing it: the election timer, and a vote
response of a larger term, on which the old term is written. -/
def RaisesTerm (n : RaftNode) : Input → Prop
  | .electionTimeout => n.role ≠ .leader
  | .receive _ (.requestVoteReply response) _ => n.currentTerm < response.header.term
  | _ => False

/-- The inputs on which a node writes the term that it has afterwards. -/
def SavesTerm (cfg : RaftConfig) (n : RaftNode) : Input → Prop
  | .receive _ (.requestVote request) _ => n.currentTerm < request.term
  | .receive _ (.appendEntries _ request) _ => n.currentTerm < request.term
  | .receive _ (.requestVoteReply response) _ => response.header.term = n.currentTerm ∧
      n.role = .candidate ∧ response.voteGranted = true ∧ cfg.peerCount/2 < n.votes + 1
  | .receive _ (.appendEntriesReply _ response) _ =>
      n.role = .leader ∧ n.currentTerm < response.header.term
  | _ => False

instance (n : RaftNode) : ∀ input, Decidable (n.RaisesTerm input)
  | .electionTimeout => inferInstanceAs (Decidable (n.role ≠ .leader))
  | .receive _ (.requestVoteReply response) _ =>
    inferInstanceAs (Decidable (n.currentTerm < response.header.term))
  | .receive _ (.requestVote _) _ => .isFalse id
  | .receive _ (.appendEntries _ _) _ => .isFalse id
  | .receive _ (.appendEntriesReply _ _) _ => .isFalse id
  | .heartbeatTimeout => .isFalse id
  | .client .. => .isFalse id

instance (cfg : RaftConfig) (n : RaftNode) : ∀ input, Decidable (n.SavesTerm cfg input)
  | .receive _ (.requestVote request) _ =>
    inferInstanceAs (Decidable (n.currentTerm < request.term))
  | .receive _ (.appendEntries _ request) _ =>
    inferInstanceAs (Decidable (n.currentTerm < request.term))
  | .receive _ (.requestVoteReply _) _ => inferInstanceAs (Decidable (_ ∧ _ ∧ _ ∧ _))
  | .receive _ (.appendEntriesReply _ _) _ => inferInstanceAs (Decidable (_ ∧ _))
  | .electionTimeout => .isFalse id
  | .heartbeatTimeout => .isFalse id
  | .client .. => .isFalse id

/-- The term and the vote record stay as they are. -/
def KeepsRecord (n n' : RaftNode) : Prop :=
  n'.currentTerm = n.currentTerm ∧ n'.logs.persister.record = n.logs.persister.record

theorem KeepsRecord.trans {n n' n'' : RaftNode} (h : n.KeepsRecord n') (h' : n'.KeepsRecord n'') :
    n.KeepsRecord n'' := ⟨h'.1.trans h.1,h'.2.trans h.2⟩

section Keeps
variable {cfg : RaftConfig} {n n' : RaftNode} {io : DiskOutcome} {events : List Event}

theorem truncateEntries_record {l l' : RaftLog} {accepted : Bool} {startIndex : ℕ}
    (h : l.truncateEntries accepted startIndex = some l') :
    l'.persister.record = l.persister.record := by
  unfold RaftLog.truncateEntries at h
  split_ifs at h
  · cases h
    rfl
  · obtain ⟨r,hr,h⟩ := Option.bind_eq_some_iff.mp h
    cases r with
    | error e =>
      cases h
      rfl
    | ok p =>
      cases h
      exact Persister.truncateBatch_record hr

theorem resolveConflict_keeps {prevLogIndex prevLogTerm : ℕ}
    (h : n.resolveConflict io prevLogIndex prevLogTerm = some n') : n.KeepsRecord n' := by
  unfold resolveConflict at h
  split_ifs at h
  · obtain ⟨l,hl,h⟩ := Option.bind_eq_some_iff.mp h
    cases h
    exact ⟨rfl,truncateEntries_record hl⟩
  · cases h
    exact ⟨rfl,rfl⟩

variable [Protobuf]

theorem appendEntries_record {l l' : RaftLog} {accepted : Bool} {entries : List LogEntry}
    (h : l.appendEntries accepted entries = .ok l') :
    l'.persister.record = l.persister.record := by
  unfold RaftLog.appendEntries at h
  split at h
  · cases h
  · rename_i p hp
    cases h
    exact Persister.persistBatch_record hp

theorem applyView_keeps (h : n.applyView = some (n',events)) : n.KeepsRecord n' := by
  obtain ⟨sm,la,rfl⟩ := (applyView_viewed h).eq
  exact ⟨rfl,rfl⟩

omit [Protobuf] in
theorem raiseCommit_keeps (n : RaftNode) (leaderCommit : ℕ) :
    n.KeepsRecord (n.raiseCommit leaderCommit) := by
  unfold raiseCommit
  split_ifs <;> exact ⟨rfl,rfl⟩

theorem acceptEntries_keeps {entries : List LogEntry} {leaderCommit : ℕ}
    {response : AppendEntriesResponse}
    (h : n.acceptEntries cfg io entries leaderCommit = some (n',events,response)) :
    n.KeepsRecord n' := by
  unfold acceptEntries at h
  split at h
  · cases h
    exact ⟨rfl,rfl⟩
  · rename_i l hl
    have hlogs : n.KeepsRecord { n with logs := l } := ⟨rfl,appendEntries_record hl⟩
    dsimp only at h
    split_ifs at h
    · obtain ⟨r,hr,h⟩ := Option.bind_eq_some_iff.mp h
      cases h
      exact hlogs.trans ((raiseCommit_keeps _ leaderCommit).trans (applyView_keeps hr))
    · cases h
      exact hlogs

theorem client_keeps {method : KvMethod} {reqPayload : Bytes} {sessionId requestId : ℕ}
    (h : n.client cfg io reqPayload sessionId requestId method = some (n',events)) :
    n.KeepsRecord n' := by
  have hhandled := client_handled h
  cases hhandled with
  | unparsed _ | redirected _ _ | refused _ _ _ _ => exact ⟨rfl,rfl⟩
  | queued _ _ _ _ hlogs => exact ⟨rfl,appendEntries_record hlogs⟩

end Keeps

section Writes
variable [Protobuf] {cfg : RaftConfig} {n n' n'' : RaftNode} {io : DiskOutcome} {input : Input}
  {events : List Event}

/-- What a step does to the term and to the vote record: nothing, or it raises the term and writes
the old one at most, or it writes the term if the store accepts it. -/
inductive Recorded (cfg : RaftConfig) (n : RaftNode) (io : DiskOutcome) (input : Input)
    (n' : RaftNode) : Prop
  | kept (hraises : ¬n.RaisesTerm input) (hsaves : ¬n.SavesTerm cfg input)
      (hkeeps : n.KeepsRecord n')
  | raised (hraises : n.RaisesTerm input) (hterm : n.currentTerm < n'.currentTerm)
      (hrecord : n'.logs.persister.record = n.logs.persister.record ∨ ∃ votedFor,
        n'.logs.persister.record =
          some (Wire.serialize (⟨n.currentTerm,votedFor⟩ : PersistState)))
  | saved (hsaves : n.SavesTerm cfg input) (hterm : n.currentTerm ≤ n'.currentTerm)
      (hrecord : n'.logs.persister.record = if io.state then
        some (Wire.serialize (⟨n'.currentTerm,none⟩ : PersistState))
      else n.logs.persister.record)

theorem Recorded.trans (h : Recorded cfg n io input n') (hkeeps : n'.KeepsRecord n'') :
    Recorded cfg n io input n'' := by
  obtain ⟨hterm,hrecord⟩ := hkeeps
  cases h with
  | kept hraises hsaves h => exact .kept hraises hsaves (h.trans ⟨hterm,hrecord⟩)
  | raised hraises hlt h => exact .raised hraises (hterm ▸ hlt) (hrecord ▸ h)
  | saved hsaves hle h => exact .saved hsaves (hterm ▸ hle) (by rw [hrecord, h, hterm])

theorem persistState_record (n : RaftNode) (io : DiskOutcome) (term : ℕ) :
    (n.persistState io term).logs.persister.record = if io.state then
      some (Wire.serialize (⟨term,n.votedFor⟩ : PersistState))
    else n.logs.persister.record := by
  unfold persistState Persister.persistState
  cases io.state with
  | false => rfl
  | true => exact Storage.get_put_self _ _ _

theorem persistState_currentTerm (n : RaftNode) (io : DiskOutcome) (term : ℕ) :
    (n.persistState io term).currentTerm = n.currentTerm := by
  unfold persistState
  split <;> rfl

/-- Stepping down to the term that is written. -/
theorem stepDown_recorded {term : ℕ} (hterm : n.currentTerm < term)
    (hsaves : n.SavesTerm cfg input) : Recorded cfg n io input (n.stepDown io term term) := by
  have hcurrent : (n.stepDown io term term).currentTerm = term := persistState_currentTerm _ io term
  refine .saved hsaves (by rw [hcurrent]; exact hterm.le) ?_
  rw [hcurrent]
  exact persistState_record _ io term

/-- A request is seen by a node whose term it does not lie below. -/
theorem observeTerm_recorded {term : ℕ} (hraises : ¬n.RaisesTerm input)
    (hsaves : n.SavesTerm cfg input ↔ n.currentTerm < term) :
    Recorded cfg n io input (n.observeTerm io term) := by
  unfold observeTerm
  split_ifs with hterm
  · exact stepDown_recorded hterm (hsaves.mpr hterm)
  · exact .kept hraises (mt hsaves.mp hterm) ⟨rfl,rfl⟩

theorem handleRequestVoteRequest_recorded (cfg : RaftConfig) (n : RaftNode) (io : DiskOutcome)
    (sender : MemberId) (live : List ℕ) (request : RequestVoteRequest) :
    Recorded cfg n io (.receive sender (.requestVote request) live)
      (n.handleRequestVoteRequest cfg io request).1 := by
  unfold handleRequestVoteRequest
  split_ifs with hstale
  · exact .kept id (Nat.not_lt_of_lt hstale) ⟨rfl,rfl⟩
  · exact observeTerm_recorded id Iff.rfl

theorem handleAppendEntriesRequest_recorded {sender : MemberId} {live : List ℕ}
    {callback : Callback} {request : AppendEntriesRequest} {response : AppendEntriesResponse}
    (h : n.handleAppendEntriesRequest cfg io request = some (n',events,response)) :
    Recorded cfg n io (.receive sender (.appendEntries callback request) live) n' := by
  unfold handleAppendEntriesRequest at h
  by_cases hstale : request.term < n.currentTerm
  · rw [if_pos hstale] at h
    cases h
    exact .kept id (Nat.not_lt_of_lt hstale) ⟨rfl,rfl⟩
  rw [if_neg hstale] at h
  have hobserved : Recorded cfg n io (.receive sender (.appendEntries callback request) live)
      { n.observeTerm io request.term with leaderId := some request.leaderId } :=
    (observeTerm_recorded id Iff.rfl).trans ⟨rfl,rfl⟩
  dsimp only at h
  split_ifs at h
  · obtain ⟨r,hr,h⟩ := Option.bind_eq_some_iff.mp h
    cases h
    exact hobserved.trans ((raiseCommit_keeps _ request.leaderCommit).trans (applyView_keeps hr))
  · cases h
    exact hobserved
  · obtain ⟨n₂,hn,h⟩ := Option.bind_eq_some_iff.mp h
    exact hobserved.trans ((resolveConflict_keeps hn).trans (acceptEntries_keeps h))

/-- The one handler that writes another term than it takes over. -/
theorem handleRequestVoteResponse_recorded (cfg : RaftConfig) (n : RaftNode) (io : DiskOutcome)
    (sender : MemberId) (live : List ℕ) (response : RequestVoteResponse) :
    Recorded cfg n io (.receive sender (.requestVoteReply response) live)
      (n.handleRequestVoteResponse cfg io response).1 := by
  unfold handleRequestVoteResponse
  split_ifs with hstale hnewer hleader hgrant
  · exact .kept (Nat.not_lt_of_lt hstale) (fun h => absurd h.1 hstale.ne) ⟨rfl,rfl⟩
  · have hcurrent : (n.stepDown io response.header.term n.currentTerm).currentTerm =
        response.header.term := persistState_currentTerm _ io n.currentTerm
    refine .raised hnewer (by rw [hcurrent]; exact hnewer) ?_
    have hrecord := persistState_record
      { n.increaseTermTo response.header.term with role := .follower } io n.currentTerm
    rw [stepDown, hrecord]
    split_ifs
    · exact Or.inr ⟨_,rfl⟩
    · exact Or.inl rfl
  · refine .kept hnewer (fun h => ?_) ⟨rfl,rfl⟩
    rw [h.2.1] at hleader
    cases hleader
  · dsimp only
    split_ifs with hmajority
    · have hcurrent : ({ n with votes := n.votes + 1 }.becomeLeader io).currentTerm =
          n.currentTerm := persistState_currentTerm _ io n.currentTerm
      refine .saved ⟨by omega,hmajority.2,hgrant,hmajority.1⟩ hcurrent.ge ?_
      rw [hcurrent]
      exact persistState_record _ io n.currentTerm
    · exact .kept hnewer (fun h => hmajority ⟨h.2.2.2,h.2.1⟩) ⟨rfl,rfl⟩
  · exact .kept hnewer (fun h => hgrant h.2.2.1) ⟨rfl,rfl⟩

theorem handleHeartbeatResponse_recorded (cfg : RaftConfig) (n : RaftNode) (io : DiskOutcome)
    (sender : MemberId) (live : List ℕ) (response : AppendEntriesResponse) :
    Recorded cfg n io (.receive sender (.appendEntriesReply .heartbeat response) live)
      (n.handleHeartbeatResponse io response).1 := by
  unfold handleHeartbeatResponse
  split_ifs with hleft hnewer
  · refine .kept id (fun h => ?_) ⟨rfl,rfl⟩
    obtain hstale | hrole := hleft
    · exact absurd h.2 (Nat.not_lt_of_lt hstale)
    · exact hrole h.1
  · exact stepDown_recorded hnewer ⟨by tauto,hnewer⟩
  · exact .kept id (fun h => hnewer h.2) ⟨rfl,rfl⟩

theorem handleAppendEntriesResponse_recorded (cfg : RaftConfig) (n : RaftNode) (io : DiskOutcome)
    (sender : MemberId) (live : List ℕ) (response : AppendEntriesResponse) :
    Recorded cfg n io (.receive sender (.appendEntriesReply .appendEntries response) live)
      (n.handleAppendEntriesResponse io live response).1 := by
  unfold handleAppendEntriesResponse
  dsimp only
  split_ifs with hleft hnewer hfail hnew
  · refine .kept id (fun h => ?_) ⟨rfl,rfl⟩
    obtain hstale | hrole := hleft
    · exact absurd h.2 (Nat.not_lt_of_lt hstale)
    · exact hrole h.1
  · exact stepDown_recorded hnewer ⟨by tauto,hnewer⟩
  · exact .kept id (fun h => hnewer h.2) ⟨rfl,rfl⟩
  · exact .kept id (fun h => hnewer h.2) ⟨rfl,rfl⟩
  · exact .kept id (fun h => hnewer h.2) ⟨rfl,rfl⟩

theorem startElectionTimeout_recorded (cfg : RaftConfig) (n : RaftNode) (io : DiskOutcome) :
    Recorded cfg n io .electionTimeout (n.startElectionTimeout cfg).1 := by
  unfold startElectionTimeout
  split_ifs with hrole
  · exact .kept (not_not.mpr hrole) id ⟨rfl,rfl⟩
  · exact .raised hrole (Nat.lt_succ_self _) (Or.inl rfl)

theorem startHeartbeatTimeout_recorded (cfg : RaftConfig) (n : RaftNode) (io : DiskOutcome) :
    Recorded cfg n io .heartbeatTimeout (n.startHeartbeatTimeout cfg).1 := by
  unfold startHeartbeatTimeout
  split_ifs <;> exact .kept id id ⟨rfl,rfl⟩

theorem Recorded.of_pair {r : RaftNode × List Event} (hr : Recorded cfg n io input r.1)
    (h : some r = some (n',events)) : Recorded cfg n io input n' := by
  cases h
  exact hr

/-- Which steps keep the term and the record, which raise the term and which save it. -/
theorem step_recorded (h : n.step cfg io input = some (n',events)) :
    Recorded cfg n io input n' := by
  cases input with
  | electionTimeout => exact (startElectionTimeout_recorded cfg n io).of_pair h
  | heartbeatTimeout => exact (startHeartbeatTimeout_recorded cfg n io).of_pair h
  | receive sender body live =>
    cases body with
    | requestVote request =>
      exact (handleRequestVoteRequest_recorded cfg n io sender live request).of_pair h
    | appendEntries callback request =>
      obtain ⟨r,hr,h⟩ := Option.bind_eq_some_iff.mp h
      cases h
      exact handleAppendEntriesRequest_recorded hr
    | requestVoteReply response =>
      exact (handleRequestVoteResponse_recorded cfg n io sender live response).of_pair h
    | appendEntriesReply callback response =>
      cases callback with
      | heartbeat =>
        exact (handleHeartbeatResponse_recorded cfg n io sender live response).of_pair h
      | appendEntries =>
        exact (handleAppendEntriesResponse_recorded cfg n io sender live response).of_pair h
  | client method reqPayload sessionId requestId => exact .kept id id (client_keeps h)

end Writes

section Saved
variable [Protobuf] {cfg : RaftConfig} {n n' : RaftNode} {io : DiskOutcome} {input : Input}
  {events : List Event}

/-- The vote record holds the own term. -/
def TermSaved (n : RaftNode) : Prop :=
  n.logs.persister.recoverState.toOption.map PersistState.currentTerm = some n.currentTerm

instance (n : RaftNode) : Decidable n.TermSaved :=
  inferInstanceAs (Decidable (_ = some n.currentTerm))

/-- The vote record holds no larger term than the own. -/
def TermCovers (n : RaftNode) : Prop :=
  ∀ state, n.logs.persister.recoverState = .ok state → state.currentTerm ≤ n.currentTerm

theorem TermSaved.covers (h : n.TermSaved) : n.TermCovers := by
  intro state hstate
  rw [TermSaved, hstate] at h
  exact (Option.some.inj h).le

theorem TermSaved.exists_state (h : n.TermSaved) :
    ∃ state, n.logs.persister.recoverState = .ok state ∧ state.currentTerm = n.currentTerm := by
  rw [TermSaved] at h
  cases hstate : n.logs.persister.recoverState with
  | error e =>
    rw [hstate] at h
    cases h
  | ok state =>
    rw [hstate] at h
    exact ⟨state,rfl,Option.some.inj h⟩

theorem termSaved_of_record {votedFor : Option MemberId} (h : n.logs.persister.record =
    some (Wire.serialize (⟨n.currentTerm,votedFor⟩ : PersistState))) : n.TermSaved := by
  rw [TermSaved, Persister.recoverState_of_record h]
  rfl

/-- The node built from two stores has the term of the vote record, which stays as it is. -/
theorem create_recovers {raftStore kvStore : Storage} {accepted : Bool}
    (h : RaftNode.create raftStore kvStore accepted = .ok n) :
    Persister.recoverState ⟨raftStore⟩ = n.logs.persister.recoverState ∧ n.TermSaved := by
  unfold RaftNode.create at h
  split at h
  · cases h
  · rename_i logs hl
    split at h
    · cases h
    · rename_i state hstate
      cases h
      refine ⟨?_,?_⟩
      · unfold RaftLog.create at hl
        split at hl
        · cases hl
        · rename_i p entries hr
          cases hl
          exact (Persister.recoverState_congr (Persister.recoverEntries_record hr)).symm
      · change logs.persister.recoverState.toOption.map PersistState.currentTerm = _
        rw [hstate]
        rfl

theorem KeepsRecord.recoverState_eq (h : n.KeepsRecord n') :
    n'.logs.persister.recoverState = n.logs.persister.recoverState :=
  Persister.recoverState_congr h.2

/-- After the term was raised the record is behind. -/
theorem Recorded.behind (hcovers : n.TermCovers) (h : Recorded cfg n io input n')
    (hraises : n.RaisesTerm input) (hsaves : ¬n.SavesTerm cfg input) :
    ∀ state, n'.logs.persister.recoverState = .ok state →
      state.currentTerm < n'.currentTerm := by
  intro state hstate
  cases h with
  | kept hkept _ _ => exact absurd hraises hkept
  | saved hsaved _ _ => exact absurd hsaved hsaves
  | raised _ hterm hrecord =>
    refine lt_of_le_of_lt ?_ hterm
    obtain hsame | ⟨votedFor,hold⟩ := hrecord
    · rw [Persister.recoverState_congr hsame] at hstate
      exact hcovers state hstate
    · rw [Persister.recoverState_of_record hold] at hstate
      cases hstate
      exact le_rfl

/-- Where the record holds the term, what a step leaves of its writes holds no smaller one. -/
theorem TermSaved.recorded (hsaved : n.TermSaved) (h : Recorded cfg n io input n') {state}
    (hstate : n'.logs.persister.recoverState = .ok state) :
    n.currentTerm ≤ state.currentTerm := by
  have hsame : n'.logs.persister.record = n.logs.persister.record →
      n.currentTerm ≤ state.currentTerm := by
    intro hrecord
    rw [Persister.recoverState_congr hrecord] at hstate
    obtain ⟨old,hold,hterm⟩ := hsaved.exists_state
    obtain rfl := Except.ok.inj (hold.symm.trans hstate)
    exact hterm.ge
  have hwritten : ∀ written : PersistState, n.currentTerm ≤ written.currentTerm →
      n'.logs.persister.record = some (Wire.serialize written) →
      n.currentTerm ≤ state.currentTerm := by
    intro written hle hrecord
    rw [Persister.recoverState_of_record hrecord] at hstate
    obtain rfl := Except.ok.inj hstate
    exact hle
  cases h with
  | kept _ _ hkeeps => exact hsame hkeeps.2
  | raised _ _ hrecord =>
    obtain hrecord | ⟨votedFor,hrecord⟩ := hrecord
    · exact hsame hrecord
    · exact hwritten ⟨n.currentTerm,votedFor⟩ le_rfl hrecord
  | saved _ hterm hrecord =>
    split_ifs at hrecord
    · exact hwritten ⟨n'.currentTerm,none⟩ hterm hrecord
    · exact hsame hrecord

omit [Protobuf] in
theorem not_savesTerm_of_raisesTerm (h : n.RaisesTerm input) : ¬n.SavesTerm cfg input := by
  cases input with
  | electionTimeout => exact id
  | receive sender body live =>
    cases body with
    | requestVoteReply response => exact fun hsaves => absurd hsaves.1.symm (ne_of_lt h)
    | requestVote _ | appendEntries _ _ | appendEntriesReply _ _ => exact h.elim
  | heartbeatTimeout | client _ _ _ _ => exact h.elim

/-- With a store that accepts its writes, a step that saves the term restores `TermSaved`, one that
raises it breaks it, and any other keeps it. -/
theorem step_termSaved_iff (hcovers : n.TermCovers) (hio : io.state = true)
    (h : n.step cfg io input = some (n',events)) :
    n'.TermSaved ↔ n.SavesTerm cfg input ∨ n.TermSaved ∧ ¬n.RaisesTerm input := by
  have hrecorded := step_recorded h
  cases hrecorded with
  | kept hraises hsaves hkeeps =>
    rw [TermSaved, hkeeps.recoverState_eq, hkeeps.1, ← TermSaved]
    tauto
  | saved hsaves _ hrecord =>
    rw [if_pos hio] at hrecord
    exact iff_of_true (termSaved_of_record hrecord) (Or.inl hsaves)
  | raised hraises hterm hrecord =>
    have hsaves : ¬n.SavesTerm cfg input := not_savesTerm_of_raisesTerm hraises
    refine iff_of_false (fun hsaved => ?_) (by tauto)
    obtain ⟨state,hstate,heq⟩ := hsaved.exists_state
    have hlt := (step_recorded h).behind hcovers hraises hsaves state hstate
    exact absurd heq hlt.ne

theorem step_termCovers (hcovers : n.TermCovers) (hio : io.state = true)
    (h : n.step cfg io input = some (n',events)) : n'.TermCovers := by
  have hrecorded := step_recorded h
  cases hrecorded with
  | kept _ _ hkeeps =>
    intro state hstate
    rw [hkeeps.recoverState_eq] at hstate
    exact (hcovers state hstate).trans hkeeps.1.ge
  | saved _ _ hrecord =>
    rw [if_pos hio] at hrecord
    exact (termSaved_of_record hrecord).covers
  | raised hraises _ _ =>
    intro state hstate
    exact ((step_recorded h).behind hcovers hraises (not_savesTerm_of_raisesTerm hraises) state
      hstate).le

end Saved
end RaftNode

/-- One member across its crashes: its node, all that it has done since it first started, and
whether its term was raised and not written since. -/
structure Life where
  node : RaftNode
  history : List Event
  window : Bool

/-- In a crash during a reaction `io` tells which writes came before it, and nothing is sent: a
reaction writes before it sends, so a crash between its messages is one after it. -/
inductive LifeLabel
  | react (input : Input)
  | crash
  | crashDuring (io : DiskOutcome) (input : Input)

namespace Life
variable [Protobuf]

/-- A start from what the two stores hold. -/
def restart (s : Life) : Option Life :=
  match RaftNode.create s.node.logs.persister.st s.node.stateMachine.st true with
  | .error _ => none
  | .ok n => some ⟨n,s.history,false⟩

def step (cfg : RaftConfig) (s : Life) : LifeLabel → Option Life
  | .react input => do
    let (n,events) ← s.node.step cfg .ok input
    return ⟨n,s.history ++ events,
      s.node.RaisesTerm input || (s.window && !decide (s.node.SavesTerm cfg input))⟩
  | .crash => s.restart
  | .crashDuring io input => do
    let (n,_) ← s.node.step cfg io input
    Life.restart { s with node := n }

/-- The member's term has reached every term it has put into a message. -/
def TermsSurvive (s : Life) : Prop :=
  ∀ receiver body, .sent receiver body ∈ s.history → body.term ≤ s.node.currentTerm

/-- No crash falls in a window, unless the handler it interrupts has closed it. -/
def OutsideWindows (cfg : RaftConfig) (s : Life) : LifeLabel → Prop
  | .react _ => True
  | .crash => s.window = false
  | .crashDuring io input =>
    s.window = false ∨ io.state = true ∧ s.node.SavesTerm cfg input

instance (cfg : RaftConfig) (s : Life) : ∀ l, Decidable (OutsideWindows cfg s l)
  | .react _ => .isTrue trivial
  | .crash => inferInstanceAs (Decidable (_ = _))
  | .crashDuring _ _ => inferInstanceAs (Decidable (_ ∨ _ ∧ _))

/-- The window shows whether the record holds the term, and it never holds a larger one. -/
structure Watched (s : Life) : Prop where
  covers : s.node.TermCovers
  window : s.window = false ↔ s.node.TermSaved

variable {cfg : RaftConfig} {s s' : Life} {l : LifeLabel} {labels : List LifeLabel}
  {raftStore kvStore : Storage} {accepted : Bool} {n₀ : RaftNode}

theorem Watched.of_create (h : RaftNode.create raftStore kvStore accepted = .ok n₀)
    (history : List Event) : Watched ⟨n₀,history,false⟩ :=
  ⟨(RaftNode.create_recovers h).2.covers,iff_of_true rfl (RaftNode.create_recovers h).2⟩

/-- The node after a restart has the term that the store shows. -/
theorem restart_eq (h : s.restart = some s') :
    ∃ state, s.node.logs.persister.recoverState = .ok state ∧
      s'.node.currentTerm = state.currentTerm ∧ s'.history = s.history ∧ Watched s' := by
  unfold restart at h
  split at h
  · cases h
  · rename_i n hn
    cases h
    obtain ⟨hsame,hsaved⟩ := RaftNode.create_recovers hn
    obtain ⟨state,hstate,hterm⟩ := hsaved.exists_state
    exact ⟨state,hsame.trans hstate,hterm.symm,rfl,.of_create hn _⟩

theorem Watched.step (hs : Watched s) (h : s.step cfg l = some s') : Watched s' := by
  cases l with
  | react input =>
    obtain ⟨⟨n,events⟩,hn,h⟩ := Option.bind_eq_some_iff.mp h
    cases h
    refine ⟨RaftNode.step_termCovers hs.covers rfl hn,?_⟩
    rw [RaftNode.step_termSaved_iff hs.covers rfl hn, ← hs.window]
    have hexclusive := @RaftNode.not_savesTerm_of_raisesTerm cfg s.node input
    simp only [Bool.or_eq_false_iff, decide_eq_false_iff_not, Bool.and_eq_false_iff,
      Bool.not_eq_false', decide_eq_true_eq]
    tauto
  | crash => exact (restart_eq h).choose_spec.2.2.2
  | crashDuring io input =>
    obtain ⟨⟨n,events⟩,-,h⟩ := Option.bind_eq_some_iff.mp h
    exact (restart_eq h).choose_spec.2.2.2

/-- Windows, as the inputs open and close them, are when the record lacks the term, in every run. -/
theorem watched (hn : RaftNode.create raftStore kvStore accepted = .ok n₀)
    {ok : Life → LifeLabel → Prop} (h : Generic.Run (Life.step cfg) ok ⟨n₀,[],false⟩ labels s) :
    Watched s :=
  Generic.Run.invariant (.of_create hn []) (fun _ hs _ hl => hs.step hl) h

/-- A crash keeps the term exactly outside the windows. -/
theorem crash_keeps_iff (hs : Watched s) (h : s.step cfg .crash = some s') :
    s'.node.currentTerm = s.node.currentTerm ↔ s.window = false := by
  obtain ⟨state,hstate,hterm,-,-⟩ := restart_eq h
  rw [hs.window, RaftNode.TermSaved, hstate, hterm]
  simp [Except.toOption]

theorem TermsSurvive.step (hs : s.TermsSurvive) (hw : Watched s) (hok : OutsideWindows cfg s l)
    (h : s.step cfg l = some s') : s'.TermsSurvive := by
  cases l with
  | react input =>
    obtain ⟨⟨n,events⟩,hn,h⟩ := Option.bind_eq_some_iff.mp h
    cases h
    have ht := RaftNode.step_transition hn
    intro receiver body he
    obtain he | he := List.mem_append.mp he
    · exact (hs receiver body he).trans ht.term_le
    · exact (ht.origin he).sent_term ht.term_le
  | crash =>
    have hkept := (crash_keeps_iff hw h).mpr hok
    obtain ⟨-,-,-,hhistory,-⟩ := restart_eq h
    intro receiver body he
    rw [hhistory] at he
    exact (hs receiver body he).trans hkept.ge
  | crashDuring io input =>
    obtain ⟨⟨n,events⟩,hn,h⟩ := Option.bind_eq_some_iff.mp h
    obtain ⟨state,hstate,hterm,hhistory,-⟩ := restart_eq h
    have hrecorded := RaftNode.step_recorded hn
    have hle : s.node.currentTerm ≤ state.currentTerm := by
      obtain hclosed | ⟨hio,hsaves⟩ := hok
      · exact (hw.window.mp hclosed).recorded hrecorded hstate
      · cases hrecorded with
        | kept _ hkept _ => exact absurd hsaves hkept
        | raised hraises _ _ =>
          exact absurd hsaves (RaftNode.not_savesTerm_of_raisesTerm hraises)
        | saved _ hraised hrecord =>
          rw [if_pos hio] at hrecord
          obtain ⟨written,hwritten,heq⟩ := (RaftNode.termSaved_of_record hrecord).exists_state
          obtain rfl := Except.ok.inj (hwritten.symm.trans hstate)
          exact hraised.trans heq.ge
    intro receiver body he
    rw [hhistory] at he
    rw [hterm]
    exact (hs receiver body he).trans hle

/-- In a life without crashes in a window, no restart falls behind a term that was sent. -/
theorem terms_survive (hn : RaftNode.create raftStore kvStore accepted = .ok n₀)
    (h : Generic.Run (Life.step cfg) (OutsideWindows cfg) ⟨n₀,[],false⟩ labels s) :
    s.TermsSurvive :=
  Generic.Run.invariant (by simp [TermsSurvive])
    (fun hr hs hok hl => hs.step (watched hn hr) hok hl) h

end Life

namespace Life
attribute [local instance] Proto3.protobuf

/-- A member asks for votes in term 1, sees a leader of term 5 and crashes when it has answered. -/
theorem terms_survive_heartbeat : ∃ s,
    Generic.Run (Life.step (Cluster.trio.cfg 1)) (OutsideWindows (Cluster.trio.cfg 1))
      ⟨.fresh Storage.empty,[],false⟩
      [.react .electionTimeout,.react (.receive 2 (.appendEntries .heartbeat ⟨5,2,0,0,[],0⟩) []),
        .crash] s ∧
      s.node.currentTerm = 5 ∧ s.TermsSurvive := by
  obtain ⟨s,hs,hterm⟩ : ∃ s,
      Generic.Run (Life.step (Cluster.trio.cfg 1)) (OutsideWindows (Cluster.trio.cfg 1))
        ⟨.fresh Storage.empty,[],false⟩
        [.react .electionTimeout,
          .react (.receive 2 (.appendEntries .heartbeat ⟨5,2,0,0,[],0⟩) []),.crash] s ∧
      s.node.currentTerm = 5 := Generic.Run.of_check (by decide) (by decide)
  exact ⟨s,hs,hterm,terms_survive (RaftNode.create_empty Storage.empty) hs⟩

/-- A member that asked for votes in term 1 restarts in term 0. -/
theorem term_forgotten : ∃ s, Generic.Run (Life.step (Cluster.trio.cfg 1)) (fun _ _ => True)
    ⟨.fresh Storage.empty,[],false⟩ [.react .electionTimeout,.crash] s ∧ ¬s.TermsSurvive := by
  obtain ⟨s,hs,hterm,hsent⟩ : ∃ s, Generic.Run (Life.step (Cluster.trio.cfg 1)) (fun _ _ => True)
      ⟨.fresh Storage.empty,[],false⟩ [.react .electionTimeout,.crash] s ∧
      s.node.currentTerm = 0 ∧ .sent 2 (.requestVote ⟨1,1,0,0⟩) ∈ s.history :=
    Generic.Run.of_check (Generic.accepted_of_forall (fun _ _ => trivial) _ _) (by decide)
  refine ⟨s,hs,fun h => ?_⟩
  have hle := h _ _ hsent
  rw [hterm] at hle
  exact absurd hle (by decide)

end Life
end Foskv.Raft
