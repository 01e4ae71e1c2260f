import Foskv.Raft.AppendReference
import Foskv.Raft.KvHandlers

/-! One round in which a leader brings a follower that lags behind up to its own log: rejection
of the newest entry, re-send, acceptance. -/
namespace Foskv.Raft
open Generic
namespace RaftNode

/-- What else the leader does leaves its term, its log and what it knows of member `m`. -/
structure Idles (m : MemberId) (n n' : RaftNode) : Prop where
  role : n'.role = n.role
  term : n'.currentTerm = n.currentTerm
  firstIndex : n'.logs.firstIndex = n.logs.firstIndex
  entries : n'.logs.entries = n.logs.entries
  nextIndex : n'.nextIndex.lookup m = n.nextIndex.lookup m
  matchIndex : n'.matchIndex.lookup m = n.matchIndex.lookup m

theorem Idles.refl (m : MemberId) (n : RaftNode) : n.Idles m n := ⟨rfl,rfl,rfl,rfl,rfl,rfl⟩

/-- The requests with entries that go to member `m`. -/
def resends (m : MemberId) (events : List Event) : List AppendEntriesRequest :=
  events.filterMap fun
    | .sent receiver (.appendEntries .appendEntries request) =>
      if receiver = m then some request else none
    | _ => none

section Leader
variable [Protobuf] {cfg : RaftConfig} {n n' : RaftNode} {io : DiskOutcome} {m : MemberId}
  {response : AppendEntriesResponse}

theorem handleRejection (hrole : n.role = .leader) (hterm : response.header.term = n.currentTerm)
    (hfail : response.success = false) (live : List ℕ) :
    n.handleAppendEntriesResponse io live response =
      ({ n with
        nextIndex := n.nextIndex.insert response.header.memberId response.conflictIndex },[]) := by
  simp [handleAppendEntriesResponse, hrole, hterm, hfail]

/-- An acceptance that goes beyond what is known is recorded. -/
theorem handleAcceptance (hrole : n.role = .leader) (hterm : response.header.term = n.currentTerm)
    (hsuccess : response.success = true)
    (hnew : ∀ v ∈ n.matchIndex.lookup response.header.memberId, v < response.lastLogIndex)
    (hpos : 0 < response.lastLogIndex) (live : List ℕ) :
    (n.handleAppendEntriesResponse io live response).1.matchIndex.lookup
      response.header.memberId = some response.lastLogIndex := by
  have hlt : (n.matchIndex.lookup response.header.memberId).getD 0 < response.lastLogIndex := by
    cases hv : n.matchIndex.lookup response.header.memberId with
    | none => exact hpos
    | some v => exact hnew v hv
  simp [handleAppendEntriesResponse, hrole, hterm, hsuccess, hlt, commitMiddle]

end Leader

section Heartbeat
variable {cfg : RaftConfig} {n : RaftNode} {m : MemberId} {nextIndex : ℕ}

theorem single_eq {body : Body} (hpeer : m ∈ cfg.peers.map Peer.memberId)
    (hne : m ≠ cfg.memberId) : cfg.single m body = [.sent m body] := by
  obtain ⟨peer,hfind⟩ := RaftConfig.exists_findPeer hpeer
  obtain ⟨-,rfl⟩ := RaftConfig.mem_of_findPeer hfind
  rw [RaftConfig.single, if_neg hne, hfind]

/-- Of the entries of a map only the one with the key contributes. -/
theorem flatten_of_nodupKeys {β : Type} {es : List (Sigma fun _ : MemberId => ℕ)}
    (hnodup : es.NodupKeys) {v : ℕ} (hmem : ⟨m,v⟩ ∈ es) (f : Sigma (fun _ : MemberId => ℕ) → List β)
    (hf : ∀ e ∈ es, e.1 ≠ m → f e = []) : (es.map f).flatten = f ⟨m,v⟩ := by
  induction es with
  | nil => simp at hmem
  | cons e es ih =>
    rw [List.nodupKeys_cons] at hnodup
    rw [List.map_cons, List.flatten_cons]
    obtain heq | htail := List.mem_cons.mp hmem
    · have hrest : (es.map f).flatten = [] := by
        refine List.flatten_eq_nil_iff.mpr fun xs hxs => ?_
        obtain ⟨e',he',rfl⟩ := List.mem_map.mp hxs
        refine hf e' (List.mem_cons_of_mem _ he') fun hkey => hnodup.1 ?_
        have hold : e'.1 ∈ es.keys := List.mem_map_of_mem he'
        rw [hkey] at hold
        exact heq ▸ hold
      rw [hrest, List.append_nil, heq]
    · have hkey : e.1 ≠ m := fun hkey => hnodup.1 (hkey ▸ List.mem_keys_of_mem htail)
      rw [hf e List.mem_cons_self hkey, List.nil_append,
        ih hnodup.2 htail fun e' he' => hf e' (List.mem_cons_of_mem _ he')]

/-- The heartbeat re-sends a member that lags behind one request, with what it misses. -/
theorem resends_heartbeat (hrole : n.role = .leader) (hpeer : m ∈ cfg.peers.map Peer.memberId)
    (hne : m ≠ cfg.memberId) (hnext : n.nextIndex.lookup m = some nextIndex)
    (hpos : 0 < nextIndex) (hle : nextIndex ≤ n.logs.lastLogIndex) :
    resends m (n.startHeartbeatTimeout cfg).2 = [n.reissueRequest cfg nextIndex] := by
  have hbeat : resends m (cfg.broadcast (.appendEntries .heartbeat
      (({ n with nextIndex := n.advanceNextIndex } : RaftNode).produceAppendEntriesRequest cfg))) =
      [] := by
    refine List.filterMap_eq_nil_iff.mpr fun e he => ?_
    obtain ⟨_,_,_,rfl⟩ := mem_broadcast.mp he
    rfl
  have hothers : ∀ e ∈ n.nextIndex.entries, e.1 ≠ m → resends m (n.reissue cfg e.1 e.2) = [] := by
    intro e _ hkey
    refine List.filterMap_eq_nil_iff.mpr fun event hevent => ?_
    obtain ⟨-,-,rfl⟩ := mem_reissue.mp hevent
    exact if_neg hkey
  rw [startHeartbeatTimeout, if_neg (not_not.mpr hrole)]
  change resends m (_ ++ _) = _
  rw [resends, List.filterMap_append, ← resends, ← resends, hbeat, List.append_nil, resends,
    List.filterMap_flatten, List.map_map]
  change (n.nextIndex.entries.map fun e => resends m (n.reissue cfg e.1 e.2)).flatten = _
  rw [flatten_of_nodupKeys n.nextIndex.nodupKeys (AList.mem_lookup_iff.mp hnext) _ hothers]
  rw [reissue, if_pos ⟨hle,hpos.ne'⟩, single_eq hpeer hne]
  simp [resends]

end Heartbeat

section Follower
variable [Protobuf]

/-- The node has this log in memory and in its store. -/
structure Holds (n : RaftNode) (log : List LogEntry) : Prop where
  firstIndex : n.logs.firstIndex = 1
  entries : n.logs.entries = log
  stores : n.logs.persister.Stores 1 log

instance (n : RaftNode) (log : List LogEntry) : Decidable (n.Holds log) :=
  decidable_of_iff (n.logs.firstIndex = 1 ∧ n.logs.entries = log ∧
    n.logs.persister.Stores 1 log) ⟨fun h => ⟨h.1,h.2.1,h.2.2⟩,fun h => ⟨h.1,h.2,h.3⟩⟩

/-- A restart would read this log. -/
def Recovers (n : RaftNode) (log : List LogEntry) : Prop :=
  ∃ p, n.logs.persister.recoverEntries true = .ok (p,log)

variable {cfg : RaftConfig} {n : RaftNode} {io : DiskOutcome} {log : List LogEntry}
  {request : AppendEntriesRequest}

theorem Holds.recovers (h : n.Holds log) : n.Recovers log := by
  obtain ⟨p,hp,-⟩ := h.stores.recoverEntries
  exact ⟨p,hp⟩

theorem Holds.lastLogIndex (h : n.Holds log) : n.logs.lastLogIndex = log.length := by
  rw [RaftLog.lastLogIndex_eq h.firstIndex, h.entries]

/-- Seeing a term writes only the vote record. -/
theorem Holds.observeTerm (h : n.Holds log) (io : DiskOutcome) {term : ℕ}
    (hterm : n.currentTerm ≤ term) : (n.observeTerm io term).Holds log := by
  obtain ⟨r,v,vf,p,heq⟩ := (observeTerm_observed n io hterm).eq
  refine ⟨by rw [heq]; exact h.firstIndex,by rw [heq]; exact h.entries,?_⟩
  unfold RaftNode.observeTerm
  split_ifs
  · unfold stepDown persistState Persister.persistState
    cases io.state
    · exact h.stores
    · exact h.stores.putState _
  · exact h.stores

variable (cfg io) in
/-- A request behind the end of the log is turned down with the index it should start at. -/
theorem Holds.rejects (h : n.Holds log) (request : AppendEntriesRequest)
    (hterm : n.currentTerm ≤ request.term)
    (hne : request.entries ≠ []) (hprev : log.length < request.prevLogIndex) :
    ∃ n', n.handleAppendEntriesRequest cfg io request =
        some (n',[],n'.produceAppendEntriesResponse cfg false (log.length + 1)) ∧ n'.Holds log ∧
      n'.currentTerm = request.term ∧ n'.commitIndex = n.commitIndex ∧
      n'.lastApplied = n.lastApplied := by
  have hrun := handle_beyond cfg io hterm hne (h.lastLogIndex ▸ hprev)
  have hholds := h.observeTerm io hterm
  rw [h.lastLogIndex] at hrun
  refine ⟨_,hrun,⟨hholds.firstIndex,hholds.entries,hholds.stores⟩,?_⟩
  obtain ⟨r,v,vf,p,heq⟩ := (observeTerm_observed n io hterm).eq
  rw [heq]
  exact ⟨rfl,rfl,rfl⟩

variable (cfg io) in
/-- A request that continues the log is put at its end, in memory and on disk, where the view of
what it commits exists. -/
theorem Holds.accepts (h : n.Holds log) (hterm : n.currentTerm ≤ request.term)
    (hne : request.entries ≠ []) (hprev : request.prevLogIndex = log.length)
    (hfits : request.prevLogTerm = lastTermOf log)
    (hindexed : IndexedFrom (log.length + 1) request.entries)
    (hsize : log.length + request.entries.length < UInt64.size) (hio : io.append = true) :
    if n.commitIndex < request.leaderCommit ∧ ViewEscapes n.lastApplied
        (min (log.length + request.entries.length) request.leaderCommit)
        (log.length + request.entries.length) then
      n.handleAppendEntriesRequest cfg io request = none
    else ∃ n' events, n.handleAppendEntriesRequest cfg io request =
        some (n',events,n'.produceAppendEntriesResponse cfg true 1) ∧
      n'.Holds (log ++ request.entries) ∧ n'.currentTerm = request.term := by
  have hholds := h.observeTerm io hterm
  have hterms : n.logs.termAt request.prevLogIndex = request.prevLogTerm := by
    rw [hprev, RaftLog.termAt_eq h.firstIndex (by rw [h.entries]), h.entries, List.take_length,
      hfits]
  obtain ⟨logs,-,-,hlogs,hrun⟩ := handle_within cfg io h.firstIndex hterm hne
    (by rw [h.lastLogIndex, hprev])
  obtain rfl := hlogs hterms
  obtain ⟨n₁,hn₁,hholds₁,hcommit,happlied,hterm₁⟩ : ∃ n₁ : RaftNode,
      n₁ = { n.observeTerm io request.term with leaderId := some request.leaderId } ∧
      n₁.Holds log ∧ n₁.commitIndex = n.commitIndex ∧ n₁.lastApplied = n.lastApplied ∧
      n₁.currentTerm = request.term := by
    refine ⟨_,rfl,⟨hholds.firstIndex,hholds.entries,hholds.stores⟩,?_⟩
    obtain ⟨r,v,vf,p,heq⟩ := (observeTerm_observed n io hterm).eq
    rw [heq]
    exact ⟨rfl,rfl,rfl⟩
  have haccept := acceptEntries_accepted cfg io hholds₁.firstIndex hne request.leaderCommit hio
  rw [hholds₁.lastLogIndex, hcommit, happlied] at haccept
  rw [hrun]
  change if _ then acceptEntries cfg { n.observeTerm io request.term with
    leaderId := some request.leaderId } io _ _ = none else ∃ n' events, acceptEntries cfg
      { n.observeTerm io request.term with leaderId := some request.leaderId } io _ _ = _ ∧ _
  rw [← hn₁]
  split_ifs at haccept ⊢ with hescape
  · exact haccept
  · obtain ⟨n',events,p,haccept,hterm',hp,hlog⟩ := haccept
    refine ⟨n',events,haccept,?_,hterm'.trans hterm₁⟩
    obtain ⟨q,hq,hstores,-,-⟩ := hholds₁.stores.persistBatch hne hindexed (by omega) (by omega)
      (by omega)
    obtain rfl := Except.ok.inj (hp.symm.trans hq)
    rw [show log.length + 1 - 1 = log.length by omega, List.take_length] at hstores
    refine ⟨?_,?_,?_⟩ <;> rw [hlog]
    · exact hholds₁.firstIndex
    · exact congrArg (· ++ request.entries) hholds₁.entries
    · exact hstores

end Follower

section Round
variable [Protobuf] (C : ClusterConfig) (a m : MemberId)

/-- Leader `a` records from the acceptance that `m` has its log up to an index. -/
def Records (leader : RaftNode) (acceptance : AppendEntriesResponse) (last : ℕ) : Prop :=
  ∀ n live, leader.Idles m n → ∃ n' events,
    n.step (C.cfg a) .ok (.receive m (.appendEntriesReply .appendEntries acceptance) live) =
      some (n',events) ∧ n'.matchIndex.lookup m = some last

/-- The follower accepts the re-send and then has the log `log`, which the leader records. -/
def TakesResend (leader follower : RaftNode) (resend : AppendEntriesRequest)
    (log : List LogEntry) : Prop :=
  ∀ live, ∃ follower' events acceptance,
    follower.step (C.cfg m) .ok (.receive a (.appendEntries .appendEntries resend) live) =
      some (follower',events ++ [.sent a (.appendEntriesReply .appendEntries acceptance)]) ∧
    acceptance.success = true ∧ follower'.logs.entries = log ∧ follower'.Recovers log ∧
    Records C a m leader acceptance log.length

/-- The next heartbeat of the leader re-sends what follows the first `f` entries, and the
follower takes it. -/
def Resends (leader follower : RaftNode) (log : List LogEntry) (f : ℕ) : Prop :=
  ∀ n, leader.Idles m n → ∃ n' events resend,
    n.step (C.cfg a) .ok .heartbeatTimeout = some (n',events) ∧ resends m events = [resend] ∧
    resend.entries = log.drop f ∧ resend.prevLogIndex = f ∧
    resend.prevLogTerm = lastTermOf (log.take f) ∧ TakesResend C a m n' follower resend log

/-- The round: the broadcast of the newest entry is rejected with the index behind the first `f`
entries, the leader learns it, re-sends and is told of the whole log. -/
def CatchesUp (leader follower : RaftNode) (log : List LogEntry) (newest : LogEntry) (f : ℕ) :
    Prop :=
  ∀ live, ∃ follower' rejection,
    follower.step (C.cfg m) .ok (.receive a (.appendEntries .appendEntries
        (leader.newestRequest (C.cfg a) newest)) live) =
      some (follower',[.sent a (.appendEntriesReply .appendEntries rejection)]) ∧
    rejection.success = false ∧ rejection.conflictIndex = f + 1 ∧
    follower'.logs.entries = follower.logs.entries ∧ follower'.Recovers (log.take f) ∧
    ∀ n live', leader.Idles m n → ∃ n',
      n.step (C.cfg a) .ok (.receive m (.appendEntriesReply .appendEntries rejection) live') =
        some (n',[]) ∧ Resends C a m n' follower' log f

/-- A leader with the log `log` has just put `newest` at its end, and a follower has the first
`f` entries, in memory and on disk, and lacks more than the newest. -/
structure Lagging (leader follower : RaftNode) (log : List LogEntry) (newest : LogEntry)
    (f : ℕ) : Prop where
  peers : a ≠ m ∧ m ∈ C.members
  role : leader.role = .leader
  firstIndex : leader.logs.firstIndex = 1
  entries : leader.logs.entries = log
  indexed : IndexedFrom 1 log
  size : log.length < UInt64.size
  newest : log.getLast? = some newest
  term : follower.currentTerm ≤ leader.currentTerm
  holds : follower.Holds (log.take f)
  short : f + 1 < log.length
  unmatched : ∀ v ∈ leader.matchIndex.lookup m, v < log.length

instance (leader follower : RaftNode) (log : List LogEntry) (newest : LogEntry) (f : ℕ) :
    Decidable (Lagging C a m leader follower log newest f) :=
  decidable_of_iff ((a ≠ m ∧ m ∈ C.members) ∧ leader.role = .leader ∧
      leader.logs.firstIndex = 1 ∧ leader.logs.entries = log ∧ IndexedFrom 1 log ∧
      log.length < UInt64.size ∧ log.getLast? = some newest ∧
      follower.currentTerm ≤ leader.currentTerm ∧ follower.Holds (log.take f) ∧
      f + 1 < log.length ∧ ∀ v ∈ leader.matchIndex.lookup m, v < log.length)
    ⟨fun h => ⟨h.1,h.2.1,h.2.2.1,h.2.2.2.1,h.2.2.2.2.1,h.2.2.2.2.2.1,h.2.2.2.2.2.2.1,
      h.2.2.2.2.2.2.2.1,h.2.2.2.2.2.2.2.2.1,h.2.2.2.2.2.2.2.2.2.1,h.2.2.2.2.2.2.2.2.2.2⟩,
    fun h => ⟨h.peers,h.role,h.firstIndex,h.entries,h.indexed,h.size,h.newest,h.term,h.holds,
      h.short,h.unmatched⟩⟩

variable {C a m} {leader follower : RaftNode} {log : List LogEntry} {newest : LogEntry} {f : ℕ}

theorem records (hrole : leader.role = .leader) {acceptance : AppendEntriesResponse}
    (hmember : acceptance.header.memberId = m) (hterm : acceptance.header.term = leader.currentTerm)
    (hsuccess : acceptance.success = true) (hlast : acceptance.lastLogIndex = log.length)
    (hpos : 0 < log.length) (hunmatched : ∀ v ∈ leader.matchIndex.lookup m, v < log.length) :
    Records C a m leader acceptance log.length := by
  intro n live hidle
  subst hmember
  refine ⟨_,_,rfl,?_⟩
  rw [← hlast]
  refine handleAcceptance (hidle.role.trans hrole) (hterm.trans hidle.term.symm) hsuccess ?_ ?_ live
  · rw [hidle.matchIndex, hlast]
    exact hunmatched
  · rw [hlast]
    exact hpos

/-- The re-send is taken unless the view of what it commits leaves the vector. -/
theorem takesResend_iff (hrole : leader.role = .leader) (hindexed : IndexedFrom 1 log)
    (hsize : log.length < UInt64.size) (hf : f < log.length)
    (hunmatched : ∀ v ∈ leader.matchIndex.lookup m, v < log.length)
    (hholds : follower.Holds (log.take f)) (hterm : follower.currentTerm ≤ leader.currentTerm)
    {resend : AppendEntriesRequest} (hreq : resend.term = leader.currentTerm)
    (hentries : resend.entries = log.drop f) (hprev : resend.prevLogIndex = f)
    (hprevTerm : resend.prevLogTerm = lastTermOf (log.take f)) :
    TakesResend C a m leader follower resend log ↔
      ¬(follower.commitIndex < resend.leaderCommit ∧ ViewEscapes follower.lastApplied
        (min log.length resend.leaderCommit) log.length) := by
  have hlen : (log.take f).length = f := by
    rw [List.length_take]
    omega
  have htotal : f + resend.entries.length = log.length := by
    rw [hentries, List.length_drop]
    omega
  have hne : resend.entries ≠ [] := by
    rw [← List.length_pos_iff]
    omega
  have hrest : IndexedFrom (f + 1) resend.entries := by
    rw [hentries, Nat.add_comm]
    exact hindexed.drop f
  have haccept := hholds.accepts (C.cfg m) .ok (hterm.trans hreq.ge) hne
    (hprev.trans hlen.symm) hprevTerm (by rwa [hlen]) (by rw [hlen, htotal]; exact hsize) rfl
  rw [hlen, htotal, hentries, List.take_append_drop] at haccept
  unfold TakesResend
  by_cases hescape : follower.commitIndex < resend.leaderCommit ∧ ViewEscapes follower.lastApplied
      (min log.length resend.leaderCommit) log.length
  · rw [if_pos hescape] at haccept
    refine iff_of_false (fun h => ?_) (not_not.mpr hescape)
    obtain ⟨follower',events,acceptance,hstep,-⟩ := h []
    simp only [RaftNode.step, receive, haccept, Option.bind_eq_bind, Option.bind_none] at hstep
    cases hstep
  · rw [if_neg hescape] at haccept
    obtain ⟨follower',events,hrun,hholds',hterm'⟩ := haccept
    refine iff_of_true (fun live => ⟨follower',events,
      follower'.produceAppendEntriesResponse (C.cfg m) true 1,?_,rfl,hholds'.entries,
      hholds'.recovers,?_⟩) hescape
    · simp only [RaftNode.step, receive, hrun]
      rfl
    · exact records hrole rfl (hterm'.trans hreq) rfl hholds'.lastLogIndex (by omega) hunmatched

/-- The heartbeat re-sends what the member misses, whatever is committed at that moment. -/
theorem resends_iff (hpeers : a ≠ m ∧ m ∈ C.members) (hrole : leader.role = .leader)
    (hfirst : leader.logs.firstIndex = 1) (hlog : leader.logs.entries = log)
    (hnext : leader.nextIndex.lookup m = some (f + 1)) (hindexed : IndexedFrom 1 log)
    (hsize : log.length < UInt64.size) (hf : f < log.length)
    (hunmatched : ∀ v ∈ leader.matchIndex.lookup m, v < log.length)
    (hholds : follower.Holds (log.take f)) (hterm : follower.currentTerm ≤ leader.currentTerm) :
    Resends C a m leader follower log f ↔
      ∀ c, ¬(follower.commitIndex < c ∧ ViewEscapes follower.lastApplied (min log.length c)
        log.length) := by
  have hstep : ∀ n, leader.Idles m n → ∃ n',
      n.step (C.cfg a) .ok .heartbeatTimeout =
        some (n',(n.startHeartbeatTimeout (C.cfg a)).2) ∧
      resends m (n.startHeartbeatTimeout (C.cfg a)).2 = [n.reissueRequest (C.cfg a) (f + 1)] ∧
      (n.reissueRequest (C.cfg a) (f + 1)).entries = log.drop f ∧
      (n.reissueRequest (C.cfg a) (f + 1)).prevLogTerm = lastTermOf (log.take f) ∧
      (TakesResend C a m n' follower (n.reissueRequest (C.cfg a) (f + 1)) log ↔
        ¬(follower.commitIndex < n.commitIndex ∧ ViewEscapes follower.lastApplied
          (min log.length n.commitIndex) log.length)) := by
    intro n hidle
    have hfirst' := hidle.firstIndex.trans hfirst
    have hlog' := hidle.entries.trans hlog
    have hrole' := hidle.role.trans hrole
    have hentries := @reissueRequest_entries (C.cfg a) n hfirst' _ (Nat.succ_pos f)
    have hprevTerm :
        (n.reissueRequest (C.cfg a) (f + 1)).prevLogTerm = lastTermOf (log.take f) := by
      change n.logs.termAt f = _
      rw [RaftLog.termAt_eq hfirst' (by rw [hlog']; omega), hlog']
    rw [hlog'] at hentries
    refine ⟨{ n with nextIndex := n.advanceNextIndex },?_,?_,hentries,hprevTerm,?_⟩
    · simp only [RaftNode.step, startHeartbeatTimeout, hrole', ne_eq, not_true_eq_false, if_false]
    · refine resends_heartbeat hrole' hpeers.2 hpeers.1.symm (hidle.nextIndex.trans hnext)
        (Nat.succ_pos f) ?_
      rw [RaftLog.lastLogIndex_eq hfirst', hlog']
      exact hf
    · exact @takesResend_iff _ C a m { n with nextIndex := n.advanceNextIndex } follower log f
        hrole' hindexed hsize hf (hidle.matchIndex ▸ hunmatched) hholds
        (hterm.trans hidle.term.ge) (n.reissueRequest (C.cfg a) (f + 1)) rfl hentries rfl hprevTerm
  constructor
  · intro h c
    have hidle : leader.Idles m { leader with commitIndex := c } := ⟨rfl,rfl,rfl,rfl,rfl,rfl⟩
    obtain ⟨n',hs,hres,-,-,htakes⟩ := hstep _ hidle
    obtain ⟨n'',events,resend,hs',hres',-,-,-,htaken⟩ := h _ hidle
    rw [hs, Option.some.injEq, Prod.mk.injEq] at hs'
    obtain ⟨rfl,rfl⟩ := hs'
    rw [hres, List.singleton_inj] at hres'
    subst hres'
    exact htakes.mp htaken
  · intro h n hidle
    obtain ⟨n',hs,hres,hentries,hprevTerm,htakes⟩ := hstep n hidle
    exact ⟨n',_,_,hs,hres,hentries,rfl,hprevTerm,htakes.mpr (h n.commitIndex)⟩

/-- The broadcast of the newest entry starts behind the end of the follower's log. -/
theorem Lagging.beyond (h : Lagging C a m leader follower log newest f) :
    (log.take f).length < (leader.newestRequest (C.cfg a) newest).prevLogIndex := by
  have hshort := h.short
  have hne : leader.logs.entries ≠ [] := by
    rw [← List.length_pos_iff, h.entries]
    omega
  change _ < leader.logs.prevLogIndex
  rw [RaftLog.prevLogIndex, if_neg (by simpa using hne), RaftLog.lastLogIndex_eq h.firstIndex,
    h.entries, List.length_take]
  omega

/-- The round succeeds exactly when the view of what it commits exists, whatever the leader has
committed by then. -/
theorem catchesUp_iff_forall (h : Lagging C a m leader follower log newest f) :
    CatchesUp C a m leader follower log newest f ↔
      ∀ c, ¬(follower.commitIndex < c ∧ ViewEscapes follower.lastApplied (min log.length c)
        log.length) := by
  have hlen : (log.take f).length = f := by
    have := h.short
    rw [List.length_take]
    omega
  obtain ⟨follower',hrun,hholds,hterm,hcommit,happlied⟩ := h.holds.rejects (C.cfg m) .ok
    (leader.newestRequest (C.cfg a) newest) h.term (List.cons_ne_nil _ _) h.beyond
  rw [hlen] at hrun
  have hstep : ∀ live, follower.step (C.cfg m) .ok (.receive a (.appendEntries .appendEntries
      (leader.newestRequest (C.cfg a) newest)) live) =
        some (follower',[.sent a (.appendEntriesReply .appendEntries
          (follower'.produceAppendEntriesResponse (C.cfg m) false (f + 1)))]) := by
    intro live
    simp only [RaftNode.step, receive, hrun]
    rfl
  have hlearn : ∀ n live, leader.Idles m n → n.step (C.cfg a) .ok (.receive m
      (.appendEntriesReply .appendEntries
        (follower'.produceAppendEntriesResponse (C.cfg m) false (f + 1))) live) =
      some ({ n with nextIndex := n.nextIndex.insert m (f + 1) },[]) := by
    intro n live hidle
    exact congrArg some (handleRejection (hidle.role.trans h.role)
      (hterm.trans hidle.term.symm) rfl live)
  have hresends : ∀ n, leader.Idles m n →
      (Resends C a m { n with nextIndex := n.nextIndex.insert m (f + 1) } follower' log f ↔
        ∀ c, ¬(follower.commitIndex < c ∧ ViewEscapes follower.lastApplied (min log.length c)
          log.length)) := by
    intro n hidle
    rw [← hcommit, ← happlied]
    refine resends_iff h.peers (hidle.role.trans h.role) (hidle.firstIndex.trans h.firstIndex)
      (hidle.entries.trans h.entries) (AList.lookup_insert _) h.indexed h.size
      (by have := h.short; omega) ?_ hholds (hterm.le.trans hidle.term.ge)
    change ∀ v ∈ n.matchIndex.lookup m, _
    rw [hidle.matchIndex]
    exact h.unmatched
  constructor
  · intro hround
    obtain ⟨follower'',rejection,hs,-,-,-,-,hnext⟩ := hround []
    rw [hstep, Option.some.injEq, Prod.mk.injEq] at hs
    obtain ⟨rfl,hs⟩ := hs
    obtain rfl : follower'.produceAppendEntriesResponse (C.cfg m) false (f + 1) = rejection := by
      simpa using hs
    obtain ⟨n',hs',hres⟩ := hnext leader [] (.refl m leader)
    rw [hlearn _ _ (.refl m leader), Option.some.injEq, Prod.mk.injEq] at hs'
    obtain ⟨rfl,-⟩ := hs'
    exact (hresends leader (.refl m leader)).mp hres
  · intro hc live
    refine ⟨follower',_,hstep live,rfl,rfl,hholds.entries.trans h.holds.entries.symm,
      hholds.recovers,fun n live' hidle => ⟨_,hlearn n live' hidle,(hresends n hidle).mpr hc⟩⟩

/-- The round succeeds for every leader that comes to it like this exactly when the follower's
`last_applied_` is at most one above its commit index, or reaches the end of the leader's log. -/
theorem catchesUp_iff (h : Lagging C a m leader follower log newest f) :
    CatchesUp C a m leader follower log newest f ↔
      follower.lastApplied ≤ follower.commitIndex + 1 ∨ log.length ≤ follower.lastApplied := by
  have hsize := h.size
  rw [catchesUp_iff_forall h]
  unfold ViewEscapes
  constructor
  · intro hc
    have := hc (follower.commitIndex + 1)
    omega
  · intro hor c
    omega

end Round

section Trio
open Cluster
attribute [local instance] Proto3.protobuf

/-- Member 2 gets none of the first three entries and then all of them. -/
theorem catchesUp_trio : ∃ s, Cluster.Run trio anyStep (fun _ => Storage.empty)
    [.electionTimeout 1,delivery 0,delivery 1,putting 1 10,putting 1 20,putting 1 30] s ∧
      ∃ newest, CatchesUp trio 1 2 (s.node 1) (s.node 2) (s.node 1).logs.entries newest 0 := by
  obtain ⟨s,hs,⟨newest,hlagging⟩,happlied⟩ : ∃ s, Cluster.Run trio anyStep
      (fun _ => Storage.empty)
      [.electionTimeout 1,delivery 0,delivery 1,putting 1 10,putting 1 20,putting 1 30] s ∧
      (∃ newest ∈ (s.node 1).logs.entries.getLast?,
        Lagging trio 1 2 (s.node 1) (s.node 2) (s.node 1).logs.entries newest 0) ∧
      (s.node 2).lastApplied = 0 :=
    Generic.Run.of_check (Generic.accepted_of_forall (fun _ _ => trivial) _ _) (by decide)
  exact ⟨s,hs,newest,(catchesUp_iff hlagging.2).mpr (Or.inl (by omega))⟩

/-- Member 2, once leader, counted a response for an index past its own log and applied up to it.
A heartbeat of member 3 then lowers its commit index to 1, below what it has applied, and member
3 leads on with commit index 2. -/
theorem round_undefined : ∃ s, Cluster.Run trio anyStep (fun _ => Storage.empty)
    [.electionTimeout 1,delivery 0,delivery 1,putting 1 1,putting 1 2,.electionTimeout 2,
      delivery 6,delivery 6,putting 2 3,delivery 6,delivery 7,delivery 6,.electionTimeout 3,
      delivery 8,delivery 8,putting 3 4,putting 3 5,putting 3 6,delivery 10,delivery 13,
      .heartbeatTimeout 3,delivery 14,delivery 9,delivery 14,putting 3 7] s ∧
    ∃ newest, Lagging trio 3 2 (s.node 3) (s.node 2) (s.node 3).logs.entries newest 2 ∧
      ¬CatchesUp trio 3 2 (s.node 3) (s.node 2) (s.node 3).logs.entries newest 2 := by
  obtain ⟨s,hs,⟨newest,-,hlagging⟩,hcommit,happlied,hlast⟩ : ∃ s, Cluster.Run trio anyStep
      (fun _ => Storage.empty)
      [.electionTimeout 1,delivery 0,delivery 1,putting 1 1,putting 1 2,.electionTimeout 2,
        delivery 6,delivery 6,putting 2 3,delivery 6,delivery 7,delivery 6,.electionTimeout 3,
        delivery 8,delivery 8,putting 3 4,putting 3 5,putting 3 6,delivery 10,delivery 13,
        .heartbeatTimeout 3,delivery 14,delivery 9,delivery 14,putting 3 7] s ∧
      (∃ newest ∈ (s.node 3).logs.entries.getLast?,
        Lagging trio 3 2 (s.node 3) (s.node 2) (s.node 3).logs.entries newest 2) ∧
      (s.node 2).commitIndex = 1 ∧ (s.node 2).lastApplied = 3 ∧
      (s.node 3).logs.entries.length = 5 :=
    Generic.Run.of_check (Generic.accepted_of_forall (fun _ _ => trivial) _ _) (by decide)
  refine ⟨s,hs,newest,hlagging,fun h => ?_⟩
  refine (catchesUp_iff_forall hlagging).mp h 2 ?_
  rw [hcommit, happlied, hlast]
  decide

end Trio
end RaftNode
end Foskv.Raft
