import Foskv.Raft.Positions
import Foskv.Raft.Terms

/-! What a step writes to the raft store, and members that start again from what they wrote. -/
namespace Foskv.Raft
open Generic

namespace Persister
variable [Protobuf]

theorem persistBatch_accepted {p p' : Persister} {accepted : Bool} {es : List LogEntry}
    (h : p.persistBatch accepted es = .ok p') :
    accepted = true ∧ es ≠ [] ∧ p.persistBatch true es = .ok p' := by
  cases accepted with
  | true =>
    refine ⟨rfl,?_,h⟩
    rintro rfl
    cases h
  | false =>
    unfold persistBatch at h
    split at h <;> cases h

end Persister

namespace RaftNode

/-- A step writes at most the vote record, with a term it has reached, and then the entries `es`
that it puts at the end of the log. -/
structure Saves [Protobuf] (n n' : RaftNode) (es : List LogEntry) : Prop where
  firstIndex : n'.logs.firstIndex = n.logs.firstIndex
  entries : n'.logs.entries = n.logs.entries ++ es
  stored : ∃ p, (p = n.logs.persister ∨ ∃ state : PersistState,
      state.currentTerm ≤ n'.currentTerm ∧
        p = ⟨n.logs.persister.st.put persistStateKey (Wire.serialize state)⟩) ∧
    (es = [] ∧ n'.logs.persister = p ∨ p.persistBatch true es = .ok n'.logs.persister)

section Saves
variable [Protobuf] {cfg : RaftConfig} {n n₁ n' : RaftNode} {io : DiskOutcome}
  {events : List Event} {es : List LogEntry}

theorem Saves.of_logs (h : n'.logs = n.logs) : n.Saves n' [] where
  firstIndex := by rw [h]
  entries := by rw [h, List.append_nil]
  stored := ⟨n.logs.persister,Or.inl rfl,Or.inl ⟨rfl,by rw [h]⟩⟩

/-- The other fields may change after the writes. -/
theorem Saves.congr (h : n.Saves n₁ es) (hlogs : n'.logs = n₁.logs)
    (hterm : n'.currentTerm = n₁.currentTerm) : n.Saves n' es where
  firstIndex := by rw [hlogs, h.firstIndex]
  entries := by rw [hlogs, h.entries]
  stored := by
    rw [hlogs, hterm]
    exact h.stored

theorem persistState_saves (n : RaftNode) (io : DiskOutcome) {term : ℕ}
    (hle : term ≤ n.currentTerm) : n.Saves (n.persistState io term) [] := by
  unfold persistState
  split
  · exact .of_logs rfl
  · rename_i p hp
    unfold Persister.persistState at hp
    dsimp only at hp
    split_ifs at hp
    cases hp
    exact ⟨rfl,(List.append_nil _).symm,_,Or.inr ⟨⟨term,n.votedFor⟩,hle,rfl⟩,Or.inl ⟨rfl,rfl⟩⟩

theorem stepDown_saves (n : RaftNode) (io : DiskOutcome) {term persisted : ℕ}
    (hle : persisted ≤ term) : n.Saves (n.stepDown io term persisted) [] := by
  obtain ⟨hfirst,hentries,p,hp,hlogs⟩ :=
    persistState_saves { n.increaseTermTo term with role := .follower } io hle
  exact ⟨hfirst,hentries,p,hp,hlogs⟩

theorem becomeLeader_saves (n : RaftNode) (io : DiskOutcome) : n.Saves (n.becomeLeader io) [] := by
  obtain ⟨hfirst,hentries,p,hp,hlogs⟩ := persistState_saves { n with
    votes := 0
    votedFor := none
    role := .leader
    nextIndex := n.nextIndex.mapValues fun _ => n.logs.lastLogIndex + 1 } io le_rfl
  exact ⟨hfirst,hentries,p,hp,hlogs⟩

theorem observeTerm_saves (n : RaftNode) (io : DiskOutcome) (term : ℕ) :
    n.Saves (n.observeTerm io term) [] := by
  unfold observeTerm
  split_ifs
  · exact stepDown_saves n io le_rfl
  · exact .of_logs rfl

/-- Entries are appended after the vote record was written. -/
theorem Saves.append (h : n.Saves n₁ []) {accepted : Bool} {logs : RaftLog}
    (happend : n₁.logs.appendEntries accepted es = .ok logs) (hlogs : n'.logs = logs)
    (hterm : n'.currentTerm = n₁.currentTerm) : accepted = true ∧ n.Saves n' es := by
  unfold RaftLog.appendEntries at happend
  split at happend
  · cases happend
  · rename_i q hq
    obtain ⟨haccepted,-,hq⟩ := Persister.persistBatch_accepted hq
    cases happend
    obtain ⟨p,hp,hsame⟩ := h.stored
    have hpersister : n₁.logs.persister = p := by
      obtain ⟨-,hsame⟩ | hsame := hsame
      · exact hsame
      · cases hsame
    refine ⟨haccepted,?_,?_,p,?_,Or.inr ?_⟩
    · rw [hlogs, ← h.firstIndex]
    · rw [hlogs, h.entries, List.append_nil]
    · rw [hterm]
      exact hp
    · rw [hlogs, ← hpersister]
      exact hq

omit [Protobuf] in
/-- Nothing is cut for a request that names no other term inside the log. -/
theorem resolveConflict_kept {prevLogIndex prevLogTerm : ℕ}
    (h : ¬(n.logs.firstIndex ≤ prevLogIndex ∧ prevLogIndex ≤ n.logs.lastLogIndex ∧
      n.logs.termAt prevLogIndex ≠ prevLogTerm)) :
    n.resolveConflict io prevLogIndex prevLogTerm = some n := by
  unfold resolveConflict
  split_ifs with ht
  · rw [RaftLog.truncateEntries, if_pos (by omega)]
    rfl
  · rfl

/-- The entries a step appends: those of a request, or the one of a client. -/
inductive Appends (n : RaftNode) (io : DiskOutcome) : Input → List LogEntry → Prop
  | none {input} : Appends n io input []
  | received {sender callback request live} (hio : io.append = true)
      (hentries : request.entries ≠ []) (hterm : n.currentTerm ≤ request.term)
      (hprev : request.prevLogIndex ≤ n.logs.lastLogIndex) :
      Appends n io (.receive sender (.appendEntries callback request) live) request.entries
  | queued {method reqPayload sessionId requestId} (command : Bytes) :
      Appends n io (.client method reqPayload sessionId requestId)
        [⟨n.currentTerm,n.logs.lastLogIndex + 1,command⟩]

theorem acceptEntries_saves {leaderCommit : ℕ} {response : AppendEntriesResponse}
    (hobs : n.Saves n₁ [])
    (h : n₁.acceptEntries cfg io es leaderCommit = some (n',events,response)) :
    n.Saves n' [] ∨ io.append = true ∧ n.Saves n' es := by
  unfold acceptEntries at h
  split at h
  · cases h
    exact Or.inl hobs
  · rename_i logs hl
    refine Or.inr ?_
    dsimp only at h
    split_ifs at h
    · obtain ⟨r,hr,h⟩ := Option.bind_eq_some_iff.mp h
      cases h
      obtain ⟨sm,la,hview⟩ := (applyView_viewed hr).eq
      obtain ⟨c,hc⟩ := raiseCommit_eq { n₁ with logs := logs } leaderCommit
      rw [hc] at hview
      exact hobs.append hl (by rw [hview]) (by rw [hview])
    · cases h
      exact hobs.append hl rfl rfl

theorem handleAppendEntriesRequest_saves {request : AppendEntriesRequest}
    {response : AppendEntriesResponse} (hcut : ¬n.Cuts request) (sender : MemberId)
    (callback : Callback) (live : List ℕ)
    (h : n.handleAppendEntriesRequest cfg io request = some (n',events,response)) :
    ∃ es, n.Saves n' es ∧
      n.Appends io (.receive sender (.appendEntries callback request) live) es := by
  have hobs := observeTerm_saves n io request.term
  unfold handleAppendEntriesRequest at h
  by_cases ht : request.term < n.currentTerm
  · rw [if_pos ht] at h
    cases h
    exact ⟨[],.of_logs rfl,.none⟩
  rw [if_neg ht] at h
  obtain ⟨n₁,hn₁,h⟩ : ∃ n₁, n₁ = { n.observeTerm io request.term with
      leaderId := some request.leaderId } ∧
      (if request.entries.isEmpty then n₁.handleHeartbeat cfg request.leaderCommit
        else if n₁.logs.lastLogIndex < request.prevLogIndex then
          some (n₁,[],n₁.produceAppendEntriesResponse cfg false (n₁.logs.lastLogIndex + 1))
        else (n₁.resolveConflict io request.prevLogIndex request.prevLogTerm).bind fun n₂ =>
          n₂.acceptEntries cfg io request.entries request.leaderCommit) =
        some (n',events,response) := ⟨_,rfl,h⟩
  have hseen : n.Saves n₁ [] := hobs.congr (by rw [hn₁]) (by rw [hn₁])
  obtain ⟨p,hlogs⟩ : ∃ p, n₁.logs = { n.logs with persister := p } := by
    obtain ⟨r,v,vf,p,heq⟩ := (observeTerm_observed n io (Nat.le_of_not_lt ht)).eq
    exact ⟨p,by rw [hn₁, heq]⟩
  split_ifs at h with hempty hprev
  · obtain ⟨x,hx,h⟩ := Option.bind_eq_some_iff.mp h
    cases h
    obtain ⟨sm,la,hview⟩ := (applyView_viewed hx).eq
    obtain ⟨c,hc⟩ := raiseCommit_eq n₁ request.leaderCommit
    rw [hc] at hview
    exact ⟨[],hseen.congr (by rw [hview]) (by rw [hview]),.none⟩
  · cases h
    exact ⟨[],hseen,.none⟩
  · obtain ⟨n₂,hn,h⟩ := Option.bind_eq_some_iff.mp h
    have hne : request.entries ≠ [] := fun hnil => hempty (by rw [hnil]; rfl)
    rw [hlogs] at hprev
    have hle : request.prevLogIndex ≤ n.logs.lastLogIndex := Nat.le_of_not_lt hprev
    have hkept : n₁.resolveConflict io request.prevLogIndex request.prevLogTerm = some n₁ := by
      refine resolveConflict_kept fun hc => hcut ⟨hne,Nat.le_of_not_lt ht,?_⟩
      rw [hlogs] at hc
      exact hc
    obtain rfl := Option.some.inj (hkept.symm.trans hn)
    obtain hsaved | ⟨hio,hsaved⟩ := acceptEntries_saves hseen h
    · exact ⟨[],hsaved,.none⟩
    · exact ⟨_,hsaved,.received hio hne (Nat.le_of_not_lt ht) hle⟩

theorem client_saves {method : KvMethod} {reqPayload : Bytes} {sessionId requestId : ℕ}
    (h : n.client cfg io reqPayload sessionId requestId method = some (n',events)) :
    ∃ es, n.Saves n' es ∧ n.Appends io (.client method reqPayload sessionId requestId) es := by
  have hhandled := client_handled h
  cases hhandled with
  | unparsed _ | redirected _ _ | refused _ _ _ _ => exact ⟨[],.of_logs rfl,.none⟩
  | queued _ _ _ _ hlogs =>
    have hself : n.Saves n [] := .of_logs rfl
    obtain ⟨-,hsaved⟩ := hself.append hlogs rfl rfl
    exact ⟨_,hsaved,.queued _⟩

/-- A step that is given no entries to append. -/
private theorem saves_pair {r : RaftNode × List Event} {input : Input} (hr : n.Saves r.1 [])
    (h : some r = some (n',events)) : ∃ es, n.Saves n' es ∧ n.Appends io input es := by
  cases h
  exact ⟨[],hr,.none⟩

/-- What a step saves, unless it cuts the log. -/
theorem step_saves {input : Input} (h : n.step cfg io input = some (n',events))
    (hcut : ∀ {sender callback request live},
      input = .receive sender (.appendEntries callback request) live → ¬n.Cuts request) :
    ∃ es, n.Saves n' es ∧ n.Appends io input es := by
  cases input with
  | electionTimeout =>
    refine saves_pair (.of_logs ?_) h
    unfold startElectionTimeout
    split_ifs <;> rfl
  | heartbeatTimeout =>
    refine saves_pair (.of_logs ?_) h
    unfold startHeartbeatTimeout
    split_ifs <;> rfl
  | receive sender body live =>
    cases body with
    | requestVote request =>
      refine saves_pair ?_ h
      unfold handleRequestVoteRequest
      split_ifs
      · exact .of_logs rfl
      · exact observeTerm_saves n io request.term
    | appendEntries callback request =>
      obtain ⟨r,hr,h⟩ := Option.bind_eq_some_iff.mp h
      cases h
      exact handleAppendEntriesRequest_saves (hcut rfl) sender callback live hr
    | requestVoteReply response =>
      refine saves_pair ?_ h
      unfold handleRequestVoteResponse
      split_ifs with _ hlt
      · exact .of_logs rfl
      · exact stepDown_saves n io hlt.le
      · exact .of_logs rfl
      · dsimp only
        split_ifs
        · obtain ⟨hfirst,hentries,hstored⟩ :=
            becomeLeader_saves { n with votes := n.votes + 1 } io
          exact ⟨hfirst,hentries,hstored⟩
        · exact .of_logs rfl
      · exact .of_logs rfl
    | appendEntriesReply callback response =>
      cases callback with
      | heartbeat =>
        refine saves_pair ?_ h
        unfold handleHeartbeatResponse
        split_ifs
        · exact .of_logs rfl
        · exact stepDown_saves n io le_rfl
        · exact .of_logs rfl
      | appendEntries =>
        refine saves_pair ?_ h
        unfold handleAppendEntriesResponse
        dsimp only
        split_ifs
        · exact .of_logs rfl
        · exact stepDown_saves n io le_rfl
        · exact .of_logs rfl
        · exact .of_logs rfl
        · exact .of_logs rfl
  | client method reqPayload sessionId requestId => exact client_saves h

end Saves

/-- The raft store has the log of the node and the vote record of a term that is not later. -/
structure Saved [Protobuf] (n : RaftNode) : Prop where
  firstIndex : n.logs.firstIndex = 1
  indexed : IndexedFrom 1 n.logs.entries
  stores : n.logs.persister.Stores 1 n.logs.entries
  state : ∃ state, n.logs.persister.recoverState = .ok state ∧ state.currentTerm ≤ n.currentTerm

namespace Saved
variable [Protobuf] {n n' : RaftNode} {es : List LogEntry}

theorem fresh (kv : Storage) : (RaftNode.fresh kv).Saved where
  firstIndex := rfl
  indexed := .nil
  stores := by
    have hrecover : (⟨Storage.empty⟩ : Persister).recoverEntries true =
        .ok ((RaftNode.fresh kv).logs.persister,[]) := rfl
    obtain ⟨first,hstores,hfirst,-,-⟩ := Persister.stores_of_recoverEntries hrecover
    exact hfirst rfl ▸ hstores
  state := ⟨⟨0,none⟩,rfl,le_rfl⟩

/-- The store keeps up with a step that appends behind the end of the log. -/
theorem saves (hn : n.Saved) (h : n.Saves n' es) (hterm : n.currentTerm ≤ n'.currentTerm)
    (hes : IndexedFrom (n.logs.entries.length + 1) es)
    (hfit : es ≠ [] → n.logs.entries.length + es.length < UInt64.size) : n'.Saved := by
  obtain ⟨p,hp,hbatch⟩ := h.stored
  obtain ⟨hstores,hstate⟩ : p.Stores 1 n.logs.entries ∧ ∃ state, p.recoverState = .ok state ∧
      state.currentTerm ≤ n'.currentTerm := by
    obtain rfl | ⟨state,hle,rfl⟩ := hp
    · obtain ⟨state,hstate,hle⟩ := hn.state
      exact ⟨hn.stores,state,hstate,hle.trans hterm⟩
    · exact ⟨hn.stores.putState _,state,
        Persister.recoverState_of_record (Storage.get_put_self _ _ _),hle⟩
  obtain ⟨rfl,hsame⟩ | hbatch := hbatch
  · constructor
    · rw [h.firstIndex, hn.firstIndex]
    · rw [h.entries, List.append_nil]
      exact hn.indexed
    · rw [h.entries, List.append_nil, hsame]
      exact hstores
    · rw [hsame]
      exact hstate
  · obtain ⟨-,hne,-⟩ := Persister.persistBatch_accepted hbatch
    have hfit := hfit hne
    obtain ⟨q,hq,hstores',-,hrecord⟩ := hstores.persistBatch hne hes (by omega) (by omega)
      (by omega)
    obtain rfl := Except.ok.inj (hbatch.symm.trans hq)
    rw [Nat.add_sub_cancel, List.take_length] at hstores'
    constructor
    · rw [h.firstIndex, hn.firstIndex]
    · rw [h.entries, IndexedFrom.append_iff, Nat.add_comm]
      exact ⟨hn.indexed,hes⟩
    · rw [h.entries]
      exact hstores'
    · rw [Persister.recoverState_congr hrecord]
      exact hstate

/-- A start on the store succeeds and finds the log. -/
theorem create (hn : n.Saved) (kv : Storage) :
    ∃ n', RaftNode.create n.logs.persister.st kv true = .ok n' ∧ n'.Saved ∧
      n'.logs.entries = n.logs.entries ∧ n'.currentTerm ≤ n.currentTerm ∧
      n'.role = .follower ∧ n'.stateMachine = ⟨kv,[]⟩ := by
  obtain ⟨p,hp,hstores,hsame⟩ := hn.stores.recoverEntries
  rw [ite_self] at hstores
  obtain ⟨state,hstate,hle⟩ := hn.state
  have hrecord : p.recoverState = .ok state := by
    rw [Persister.recoverState_congr (hsame _ (by decide)), hstate]
  have hhead : RaftLog.headIndex n.logs.entries = 1 := by
    cases hentries : n.logs.entries with
    | nil => rfl
    | cons e es => exact hn.indexed 0 e (by rw [hentries]; rfl)
  have hlogs : RaftLog.create n.logs.persister true = .ok ⟨1,n.logs.entries,p⟩ :=
    RaftLog.create_eq_ok.mpr ⟨hp,hhead.symm⟩
  refine ⟨⟨.follower,0,none,⟨kv,[]⟩,state.currentTerm,state.votedFor,⟨1,n.logs.entries,p⟩,0,0,
    ∅,∅⟩,?_,⟨rfl,hn.indexed,hstores,state,hrecord,le_rfl⟩,rfl,hle,rfl,rfl⟩
  unfold RaftNode.create
  rw [hlogs]
  dsimp only
  rw [hrecord]

end Saved
end RaftNode
end Foskv.Raft
