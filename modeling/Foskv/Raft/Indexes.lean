import Foskv.Raft.TaskQueue

/-! The order of `last_applied_`, `commit_index_` and the end of the log, and what an append
leaves of the log. -/
namespace Foskv.Raft
open Generic
namespace RaftNode

/-- The log a request leaves behind: what a conflict leaves of it, and the request's entries
if the store takes them. -/
def receivedLog (n : RaftNode) (io : DiskOutcome) (request : AppendEntriesRequest) :
    List LogEntry :=
  if request.entries = [] ∨ request.term < n.currentTerm ∨
      n.logs.lastLogIndex < request.prevLogIndex then n.logs.entries
  else
    (if n.Cuts request then n.logs.entries.take (request.prevLogIndex - n.logs.firstIndex)
      else n.logs.entries) ++ if io.append then request.entries else []

section ReceivedLog
variable [Protobuf] {cfg : RaftConfig} {n n' : RaftNode} {io : DiskOutcome}
  {request : AppendEntriesRequest} {events : List Event}

omit [Protobuf] in
theorem truncateEntries_entries {l l' : RaftLog} {accepted : Bool} {startIndex : ℕ}
    (h : l.truncateEntries accepted startIndex = some l') :
    l'.entries = if startIndex < l.firstIndex ∨ l.lastLogIndex < startIndex then l.entries
      else l.entries.take (startIndex - l.firstIndex) := by
  unfold RaftLog.truncateEntries at h
  split_ifs at h ⊢ with hr
  · obtain rfl := Option.some.inj h
    rfl
  · obtain ⟨r,-,h⟩ := Option.bind_eq_some_iff.mp h
    cases r <;> exact (Option.some.inj h).symm ▸ rfl

omit [Protobuf] in
theorem resolveConflict_entries {n₂ : RaftNode} {prevLogIndex prevLogTerm : ℕ}
    (h : n.resolveConflict io prevLogIndex prevLogTerm = some n₂) :
    n₂.logs.entries = if n.logs.firstIndex ≤ prevLogIndex ∧ prevLogIndex ≤ n.logs.lastLogIndex ∧
        n.logs.termAt prevLogIndex ≠ prevLogTerm then
      n.logs.entries.take (prevLogIndex - n.logs.firstIndex) else n.logs.entries := by
  unfold resolveConflict at h
  split_ifs at h with ht
  · obtain ⟨l,hl,h⟩ := Option.bind_eq_some_iff.mp h
    obtain rfl := Option.some.inj h
    have hcut := truncateEntries_entries hl
    change l.entries = _
    by_cases hr : prevLogIndex < n.logs.firstIndex ∨ n.logs.lastLogIndex < prevLogIndex
    · rw [hcut, if_pos hr, if_neg (by omega)]
    · rw [hcut, if_neg hr, if_pos ⟨by omega,by omega,ht⟩]
  · obtain rfl := Option.some.inj h
    exact (if_neg fun hc => ht hc.2.2).symm

theorem acceptEntries_entries {entries : List LogEntry} (hne : entries ≠ []) {leaderCommit : ℕ}
    {response : AppendEntriesResponse}
    (h : n.acceptEntries cfg io entries leaderCommit = some (n',events,response)) :
    n'.logs.entries = n.logs.entries ++ if io.append then entries else [] := by
  obtain ⟨last,hlast⟩ := Option.ne_none_iff_exists'.mp (mt List.getLast?_eq_none_iff.mp hne)
  unfold acceptEntries RaftLog.appendEntries Persister.persistBatch at h
  rw [hlast] at h
  cases hio : io.append with
  | false =>
    simp only [hio, Bool.false_eq_true, if_false] at h
    cases h
    simp
  | true =>
    simp only [hio, if_true] at h
    split_ifs at h with hc
    · obtain ⟨r,hr,h⟩ := Option.bind_eq_some_iff.mp h
      cases h
      obtain ⟨sm,la,heq⟩ := (applyView_viewed hr).eq
      rw [heq, raiseCommit_logs]
      rfl
    · cases h
      rfl

/-- The log after an append-entries request. -/
theorem step_receivedLog {sender : MemberId} {callback : Callback} {live : List ℕ}
    (h : n.step cfg io (.receive sender (.appendEntries callback request) live) =
      some (n',events)) : n'.logs.entries = n.receivedLog io request := by
  obtain ⟨⟨n₁,es,response⟩,hn,h⟩ := Option.bind_eq_some_iff.mp h
  cases h
  unfold handleAppendEntriesRequest at hn
  unfold receivedLog
  by_cases hterm : request.term < n.currentTerm
  · rw [if_pos hterm] at hn
    cases hn
    exact (if_pos (Or.inr (Or.inl hterm))).symm
  rw [if_neg hterm] at hn
  obtain ⟨r,v,vf,p,hobs⟩ := (observeTerm_observed n io (Nat.le_of_not_lt hterm)).eq
  simp only [hobs] at hn
  by_cases hempty : request.entries = []
  · rw [if_pos (Or.inl hempty)]
    rw [if_pos (List.isEmpty_iff.mpr hempty)] at hn
    obtain ⟨r,hr,hn⟩ := Option.bind_eq_some_iff.mp hn
    cases hn
    obtain ⟨sm,la,heq⟩ := (applyView_viewed hr).eq
    rw [heq, raiseCommit_logs]
  rw [if_neg (mt List.isEmpty_iff.mp hempty)] at hn
  change (if n.logs.lastLogIndex < request.prevLogIndex then _ else _) = _ at hn
  by_cases hprev : n.logs.lastLogIndex < request.prevLogIndex
  · rw [if_pos (Or.inr (Or.inr hprev))]
    rw [if_pos hprev] at hn
    cases hn
    rfl
  rw [if_neg (by tauto)]
  rw [if_neg hprev] at hn
  obtain ⟨n₂,hres,hn⟩ := Option.bind_eq_some_iff.mp hn
  rw [acceptEntries_entries hempty hn, resolveConflict_entries hres]
  congr 1
  exact if_congr (by
    simp only [Cuts, ne_eq, hempty, not_false_eq_true, true_and, Nat.le_of_not_lt hterm]
    rfl) rfl rfl

end ReceivedLog

/-- `last_applied_ <= commit_index_ <= logs_.last_log_index()`. -/
structure Ordered (n : RaftNode) : Prop where
  applied : n.lastApplied ≤ n.commitIndex
  commit : n.commitIndex ≤ n.logs.lastLogIndex

/-- Neither index goes back. -/
structure Advances (n n' : RaftNode) : Prop where
  commit : n.commitIndex ≤ n'.commitIndex
  applied : n.lastApplied ≤ n'.lastApplied

theorem Advances.refl (n : RaftNode) : n.Advances n := ⟨le_rfl,le_rfl⟩

theorem Advances.trans {n₁ n₂ n₃ : RaftNode} (h : n₁.Advances n₂) (h' : n₂.Advances n₃) :
    n₁.Advances n₃ :=
  ⟨h.commit.trans h'.commit,h.applied.trans h'.applied⟩

/-- A response that moves `match_index_` leaves half of it at the commit index or above, and no
value half of it reaches lies past the log. A request that cuts the log cuts it above the commit
index, or the entries the store takes fill it up to there. -/
def KeepsIndexes (n : RaftNode) (io : DiskOutcome) : Input → Prop
  | .receive _ body _ =>
    (∀ response ∈ body.appendResponse, n.Raises response →
      HalfReached (n.told response).matchIndex.values n.commitIndex ∧
      ∀ v ∈ (n.told response).matchIndex.values,
        HalfReached (n.told response).matchIndex.values v → v ≤ n.logs.lastLogIndex) ∧
    ∀ request ∈ body.appendRequest, n.Cuts request →
      n.commitIndex < request.prevLogIndex + if io.append then request.entries.length else 0
  | _ => True

instance (n : RaftNode) (io : DiskOutcome) (input : Input) : Decidable (n.KeepsIndexes io input) :=
  match input with
  | .receive _ body _ => inferInstanceAs (Decidable ((∀ response ∈ body.appendResponse, _ →
      _ ∧ ∀ v ∈ IndexMap.values _, _ → _ ≤ _) ∧ ∀ request ∈ body.appendRequest, _ → _ < _))
  | .electionTimeout => .isTrue trivial
  | .heartbeatTimeout => .isTrue trivial
  | .client .. => .isTrue trivial

section Indexes
variable [Protobuf] {cfg : RaftConfig} {n n' : RaftNode} {io : DiskOutcome} {input : Input}
  {request : AppendEntriesRequest} {events : List Event}

/-- On a response that moves `match_index_` the leader commits. -/
theorem Raises.step {response : AppendEntriesResponse} (hr : n.Raises response)
    {sender : MemberId} {live : List ℕ}
    (h : n.step cfg io (.receive sender (.appendEntriesReply .appendEntries response) live) =
      some (n',events)) : (n.told response).commitMiddle live = (n',events) := by
  obtain ⟨hterm,hrole,hsuccess,hlt⟩ := hr
  refine Option.some.inj (Eq.trans ?_ h)
  simp only [RaftNode.step, receive, handleAppendEntriesResponse, hterm, hrole, hsuccess, hlt,
    lt_irrefl, ne_eq, not_true_eq_false, or_self, if_false, if_true, Bool.not_true,
    Bool.false_eq_true, told, matched]

omit [Protobuf] in
/-- How far the log reaches after a request. -/
theorem le_receivedLog_iff (hfirst : n.logs.firstIndex = 1) {k : ℕ}
    (hk : k ≤ n.logs.entries.length) : k ≤ (n.receivedLog io request).length ↔
      (n.Cuts request →
        k < request.prevLogIndex + if io.append then request.entries.length else 0) := by
  have hadded : (if io.append then request.entries else []).length =
      if io.append then request.entries.length else 0 := by split_ifs <;> rfl
  by_cases hcut : n.Cuts request
  · obtain ⟨hne,hterm,hge,hprev,-⟩ := id hcut
    rw [RaftLog.lastLogIndex_eq hfirst] at hprev
    rw [hfirst] at hge
    have htaken : ¬(request.entries = [] ∨ request.term < n.currentTerm ∨
        n.logs.lastLogIndex < request.prevLogIndex) := by
      rw [RaftLog.lastLogIndex_eq hfirst]
      simp only [hne, false_or]
      omega
    rw [receivedLog, if_neg htaken, if_pos hcut, List.length_append, hadded, List.length_take,
      hfirst]
    simp only [hcut, forall_const]
    omega
  · simp only [hcut, false_implies, iff_true]
    unfold receivedLog
    split_ifs
    · exact hk
    · exact hk.trans (List.prefix_append _ _).length_le
    · exact hk.trans (List.prefix_append _ _).length_le

omit [Protobuf] in
/-- A commit of a leader stays between the old commit index and the end of its log. -/
theorem committed_indexes_iff (hn : n.Ordered) {response : AppendEntriesResponse}
    (live : List ℕ) :
    (((n.told response).commitMiddle live).1.Ordered ∧
        n.Advances ((n.told response).commitMiddle live).1) ↔
      HalfReached (n.told response).matchIndex.values n.commitIndex ∧
      ∀ v ∈ (n.told response).matchIndex.values,
        HalfReached (n.told response).matchIndex.values v → v ≤ n.logs.lastLogIndex := by
  have hle := n.le_commitMiddle_iff response.header.memberId response.lastLogIndex
  have hmem := n.commitMiddle_mem_values response.header.memberId response.lastLogIndex live
  constructor
  · rintro ⟨hordered,hadvances⟩
    refine ⟨(hle _ live).mp hadvances.commit,fun v _ hv => ?_⟩
    exact ((hle v live).mpr hv).trans hordered.commit
  · rintro ⟨hlow,hhigh⟩
    have hcommit := (hle _ live).mpr hlow
    exact ⟨⟨le_rfl,hhigh _ hmem ((hle _ live).mp le_rfl)⟩,hcommit,hn.applied.trans hcommit⟩

omit [Protobuf] in
theorem kept_indexes (hn : n.Ordered) (hfirst : n'.logs.firstIndex = 1)
    (hlen : n.commitIndex ≤ n'.logs.entries.length) (commit : n'.commitIndex = n.commitIndex)
    (applied : n'.lastApplied = n.lastApplied) : n'.Ordered ∧ n.Advances n' := by
  refine ⟨⟨?_,?_⟩,commit.ge,applied.ge⟩
  · rw [commit, applied]
    exact hn.applied
  · rw [commit, RaftLog.lastLogIndex_eq hfirst]
    exact hlen

/-- The indexes after an append-entries request. -/
theorem followed_indexes (hn : n.Ordered) (hfirst : n'.logs.firstIndex = 1) {sender : MemberId}
    {callback : Callback} {live : List ℕ} (hlen : n.commitIndex ≤ n'.logs.entries.length)
    (h : n.Progress (.receive sender (.appendEntries callback request) live) n' events) :
    n'.Ordered ∧ n.Advances n' := by
  have happlied := hn.applied
  cases h with
  | kept commit applied _ _ => exact kept_indexes hn hfirst hlen commit applied
  | followed _ _ hcommit hview _ =>
    rw [RaftLog.lastLogIndex_eq hfirst] at hcommit
    have hle : n.commitIndex ≤ n'.commitIndex ∧ n'.commitIndex ≤ n'.logs.entries.length := by
      omega
    have hview' : n'.lastApplied = n.lastApplied ∨ n'.lastApplied = n'.commitIndex := by
      obtain ⟨-,applied,-⟩ | ⟨_,-,applied,-⟩ := hview
      · exact Or.inl applied
      · exact Or.inr applied
    rw [← RaftLog.lastLogIndex_eq hfirst] at hle
    exact ⟨⟨by omega,hle.2⟩,hle.1,by omega⟩

/-- A step of a node whose indexes are in order keeps them so, and moves none back, exactly
when it meets the condition. -/
theorem step_indexes_iff (h : n.step cfg io input = some (n',events))
    (hfirst : n.logs.firstIndex = 1) (hn : n.Ordered) :
    n.KeepsIndexes io input ↔ n'.Ordered ∧ n.Advances n' := by
  have ht := step_transition h
  have hfirst' : n'.logs.firstIndex = 1 := ht.firstIndex.trans hfirst
  have hlen : n.commitIndex ≤ n.logs.entries.length := by
    rw [← RaftLog.lastLogIndex_eq hfirst]
    exact hn.commit
  have hprog := ht.progress
  -- Without a request the log keeps what it has.
  have hstay : (∀ sender callback request live,
      input ≠ .receive sender (.appendEntries callback request) live) →
      n'.commitIndex = n.commitIndex → n'.lastApplied = n.lastApplied →
      n'.Ordered ∧ n.Advances n' := fun hi commit applied =>
    kept_indexes hn hfirst' (ht.logChange.take_eq hfirst hlen fun heq =>
      absurd heq (hi _ _ _ _)).2 commit applied
  cases input with
  | electionTimeout | heartbeatTimeout =>
    cases hprog with
    | kept commit applied _ _ => exact iff_of_true trivial (hstay (by simp) commit applied)
  | client method reqPayload sessionId requestId =>
    cases hprog with
    | kept commit applied _ _ => exact iff_of_true trivial (hstay (by simp) commit applied)
    | queued _ commit applied _ _ _ _ =>
      exact iff_of_true trivial (hstay (by simp) commit applied)
  | receive sender body live =>
    cases body with
    | requestVote _ | requestVoteReply _ =>
      cases hprog with
      | kept commit applied _ _ =>
        exact iff_of_true (by simp [KeepsIndexes, Body.appendResponse, Body.appendRequest])
          (hstay (by simp) commit applied)
    | appendEntries callback request =>
      have hreceived := step_receivedLog h
      simp only [KeepsIndexes, Body.appendResponse, Body.appendRequest, Option.mem_def,
        reduceCtorEq, false_implies, implies_true, true_and, Option.some.injEq, forall_eq']
      rw [← le_receivedLog_iff hfirst hlen, ← hreceived]
      constructor
      · intro hlen'
        exact followed_indexes hn hfirst' hlen' hprog
      · rintro ⟨hordered,hadvances⟩
        rw [← RaftLog.lastLogIndex_eq hfirst']
        exact hadvances.commit.trans hordered.commit
    | appendEntriesReply callback response =>
      have hreply : n.KeepsIndexes io (.receive sender (.appendEntriesReply callback response)
          live) ↔ (callback = .appendEntries → n.Raises response →
            HalfReached (n.told response).matchIndex.values n.commitIndex ∧
            ∀ v ∈ (n.told response).matchIndex.values,
              HalfReached (n.told response).matchIndex.values v → v ≤ n.logs.lastLogIndex) := by
        cases callback <;> simp [KeepsIndexes, Body.appendResponse, Body.appendRequest]
      rw [hreply]
      by_cases hraises : callback = .appendEntries ∧ n.Raises response
      · obtain ⟨rfl,hraises⟩ := hraises
        cases hraises.step h
        simp only [hraises, forall_const]
        exact (committed_indexes_iff hn live).symm
      · refine iff_of_true (fun hc hr => absurd ⟨hc,hr⟩ hraises) ?_
        cases hprog with
        | kept commit applied _ _ => exact hstay (by simp) commit applied
        | committed hr => exact absurd ⟨rfl,hr⟩ hraises

end Indexes
end RaftNode

namespace Cluster

def IndexesOrdered (s : Cluster) : Prop := ∀ m, (s.node m).Ordered

def IndexesAdvance (s t : Cluster) : Prop := ∀ m, (s.node m).Advances (t.node m)

section Runs
variable [Protobuf] {C : ClusterConfig} {s s' : Cluster} {l : Label}
  {kv : MemberId → Storage} {labels : List Label}

theorem step_indexesOrdered_iff (hs : Addressed C s) (ho : IndexesOrdered s)
    (h : s.step C l = some s') :
    onStep RaftNode.KeepsIndexes s l ↔ IndexesOrdered s' ∧ IndexesAdvance s s' := by
  obtain ⟨hnone,hl⟩ | ⟨m,io,input,n',events,rest,htaken,hn,ha⟩ := step_taken h
  · refine iff_of_true (by simp [onStep, hnone]) ⟨fun i => ?_,fun i => ?_⟩
    · rw [hl.node]
      exact ho i
    · rw [hl.node]
      exact .refl _
  · have hiff := RaftNode.step_indexes_iff hn (hs.firstIndex m) (ho m)
    simp only [onStep, htaken, Option.mem_some_iff, forall_eq', hiff]
    constructor
    · rintro ⟨hordered,hadvances⟩
      constructor
      · intro i
        by_cases hi : i = m
        · rw [hi, ha.node_self]
          exact hordered
        · rw [ha.node_ne hi]
          exact ho i
      · intro i
        by_cases hi : i = m
        · rw [hi, ha.node_self]
          exact hadvances
        · rw [ha.node_ne hi]
          exact .refl _
    · rintro ⟨hordered,hadvances⟩
      rw [← ha.node_self]
      exact ⟨hordered m,hadvances m⟩

omit [Protobuf] in
theorem IndexesOrdered.init (kv : MemberId → Storage) : IndexesOrdered (Cluster.init kv) :=
  fun _ => ⟨le_rfl,le_rfl⟩

/-- In every state of a run the indexes of every member are in order, and along the run they
never go back, exactly when every step meets the condition. -/
theorem indexes_ordered_iff (h : Cluster.Run C anyStep kv labels s) :
    Throughout (Cluster.step C) (Cluster.init kv) IndexesOrdered IndexesAdvance labels ↔
      Cluster.Run C (onStep RaftNode.KeepsIndexes) kv labels s :=
  Run.throughout_iff (P := IndexesOrdered) (R := IndexesAdvance) (.init kv) (fun _ _ => .refl _)
    (fun h h' m => (h m).trans (h' m))
    (fun hr ho hn => step_indexesOrdered_iff (Run.addressed hr) ho hn) h

end Runs

section Trio
attribute [local instance] Proto3.protobuf

/-- A put is committed by the response of member 2, which then learns the commit index from a
heartbeat. -/
theorem indexes_ordered_trio : Throughout (Cluster.step trio)
    (Cluster.init fun _ => Storage.empty) IndexesOrdered IndexesAdvance
    [.electionTimeout 1,delivery 0,delivery 1,putting 1 10,delivery 1,delivery 2,
      .heartbeatTimeout 1,delivery 2] := by
  obtain ⟨s,hs,-⟩ : ∃ s, Cluster.Run trio (onStep RaftNode.KeepsIndexes)
      (fun _ => Storage.empty)
      [.electionTimeout 1,delivery 0,delivery 1,putting 1 10,delivery 1,delivery 2,
        .heartbeatTimeout 1,delivery 2] s ∧ (s.node 1).commitIndex = 1 ∧
          (s.node 2).lastApplied = 1 :=
    Generic.Run.of_check (by decide) (by decide)
  exact (indexes_ordered_iff (hs.mono fun _ _ _ => trivial)).mpr hs

/-- The leader has two entries and commits both when member 2 has the first; when member 3 has
the first as well, the middle of three values is 1. -/
theorem commit_goes_back : ¬Throughout (Cluster.step trio)
    (Cluster.init fun _ => Storage.empty) IndexesOrdered IndexesAdvance
    ([.electionTimeout 1,delivery 0,delivery 1,putting 1 10,putting 1 20,delivery 1,delivery 4] ++
      [delivery 0,delivery 0,delivery 2,delivery 2]) := by
  intro h
  obtain ⟨s,hs,hcommit⟩ : ∃ s, Cluster.Run trio anyStep (fun _ => Storage.empty)
      [.electionTimeout 1,delivery 0,delivery 1,putting 1 10,putting 1 20,delivery 1,delivery 4]
        s ∧ (s.node 1).commitIndex = 2 :=
    Generic.Run.of_check (Generic.accepted_of_forall (fun _ _ => trivial) _ _) (by decide)
  obtain ⟨t,ht,hcommit'⟩ : ∃ t, Cluster.Run trio anyStep (fun _ => Storage.empty)
      ([.electionTimeout 1,delivery 0,delivery 1,putting 1 10,putting 1 20,delivery 1,
        delivery 4] ++ [delivery 0,delivery 0,delivery 2,delivery 2]) t ∧
        (t.node 1).commitIndex = 1 :=
    Generic.Run.of_check (Generic.accepted_of_forall (fun _ _ => trivial) _ _) (by decide)
  have hle := ((h _ s (List.prefix_append _ _) hs).2 _ t (List.prefix_refl _) ht 1).commit
  omega

end Trio
end Cluster
end Foskv.Raft
