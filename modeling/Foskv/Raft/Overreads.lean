import Foskv.Raft.Indexes
import Foskv.Raft.LogRanges

/-! When a step of a node is undefined: at the view of the entries to apply, for indexes that are
out of order, and in the persister's buffer, for an entry that is too long. -/
namespace Foskv.Raft
open Generic

/-- The length of the view from `applied + 1` to `commit` wraps around, and the view leaves a log of
`length` entries. -/
def Overruns (applied commit length : ℕ) : Prop :=
  commit < applied ∧ applied < length ∧ length < UInt64.size + commit

instance (applied commit length : ℕ) : Decidable (Overruns applied commit length) :=
  inferInstanceAs (Decidable (_ ∧ _ ∧ _))

theorem Span.read_none_iff {view : Span} {entries : List LogEntry} :
    view.read entries = none ↔ entries.length < view.offset + view.count := by
  unfold Span.read
  split_ifs with h
  · exact iff_of_false (by simp) (Nat.not_lt_of_le h)
  · exact iff_of_true rfl (Nat.lt_of_not_le h)

namespace RaftLog
variable {l : RaftLog}

/-- The range that is removed from the store after a cut is empty, so its loop reads nothing. -/
theorem truncateEntries_defined (hfirst : 0 < l.firstIndex) (accepted : Bool) (startIndex : ℕ) :
    ∃ l', l.truncateEntries accepted startIndex = some l' := by
  unfold truncateEntries
  split_ifs with hr
  · exact ⟨l,rfl⟩
  · have hcut : ({ l with entries := l.entries.take (startIndex - l.firstIndex) } :
        RaftLog).lastLogIndex + 1 - startIndex = 0 := by
      simp only [lastLogIndex, List.length_take] at hr ⊢
      omega
    simp only [Persister.truncateBatch, hcut, Persister.truncateKeys]
    cases accepted <;> exact ⟨_,rfl⟩

/-- The view that is applied is undefined exactly when it wraps around. -/
theorem entriesView_undefined_iff (hfirst : l.firstIndex = 1) {applied commit : ℕ} :
    (∃ view, l.entriesView (applied + 1) commit = .ok view ∧ view.read l.entries = none) ↔
      Overruns applied commit l.entries.length := by
  simp only [entriesView_eq_ok, lastLogIndex_eq hfirst, hfirst, Overruns]
  constructor
  · rintro ⟨_,⟨⟨-,hstart,hend⟩,rfl⟩,hread⟩
    simp only [Span.read_none_iff, sub64] at hread
    split_ifs at hread <;> omega
  · rintro ⟨hlt,hlong,hsize⟩
    refine ⟨_,⟨⟨by omega,by omega,by omega⟩,rfl⟩,?_⟩
    simp only [Span.read_none_iff, sub64]
    rw [if_neg (by omega)]
    omega

end RaftLog

namespace RaftNode

/-- On this request the node applies entries while the commit index, raised or not, lies below
`last_applied_` and the log goes on behind that. -/
def Overreads (n : RaftNode) (io : DiskOutcome) (request : AppendEntriesRequest) : Prop :=
  n.currentTerm ≤ request.term ∧
  (request.entries = [] ∨ request.prevLogIndex ≤ n.logs.lastLogIndex ∧ io.append = true ∧
    n.commitIndex < request.leaderCommit) ∧
  Overruns n.lastApplied
    (if n.commitIndex < request.leaderCommit then
      min (n.receivedLog io request).length request.leaderCommit
    else n.commitIndex)
    (n.receivedLog io request).length

instance (n : RaftNode) (io : DiskOutcome) (request : AppendEntriesRequest) :
    Decidable (n.Overreads io request) :=
  inferInstanceAs (Decidable (_ ∧ (_ ∨ _ ∧ _ ∧ _) ∧ _))

/-- The inputs that a node cannot take: a request on which it overreads, and for a leader a command
whose entry overruns the buffer of the persister. -/
inductive Undefined [Protobuf] (n : RaftNode) (io : DiskOutcome) : Input → Prop
  | overreads {sender callback request live} (hover : n.Overreads io request) :
      Undefined n io (.receive sender (.appendEntries callback request) live)
  | overruns {method reqPayload sessionId requestId request} (hrole : n.role = .leader)
      (hcommand : request ∈ method.command reqPayload) (hlong : ¬Buffered (n.entryFor request)) :
      Undefined n io (.client method reqPayload sessionId requestId)

/-- A node whose indexes are in order never overreads. -/
theorem Ordered.not_overreads {n : RaftNode} (hn : n.Ordered) (io : DiskOutcome)
    (request : AppendEntriesRequest) : ¬n.Overreads io request := by
  rintro ⟨-,-,hlt,hlong,-⟩
  have happlied := hn.applied
  split_ifs at hlt <;> omega

section Defined
variable [Protobuf] {cfg : RaftConfig} {n : RaftNode} {io : DiskOutcome}

theorem applyView_none_iff (hfirst : n.logs.firstIndex = 1) :
    n.applyView = none ↔ Overruns n.lastApplied n.commitIndex n.logs.entries.length := by
  rw [← RaftLog.entriesView_undefined_iff hfirst]
  unfold applyView
  cases hview : n.logs.entriesView (n.lastApplied + 1) n.commitIndex with
  | error e => simp
  | ok view =>
    cases hread : view.read n.logs.entries with
    | none => exact iff_of_true (by simp [hread]) ⟨view,rfl,hread⟩
    | some entries =>
      refine iff_of_false (by simp [hread]) ?_
      rintro ⟨_,heq,hnone⟩
      cases heq
      simp [hread] at hnone

omit [Protobuf] in
theorem resolveConflict_defined (hfirst : 0 < n.logs.firstIndex) (prevLogIndex prevLogTerm : ℕ) :
    ∃ n₂, n.resolveConflict io prevLogIndex prevLogTerm = some n₂ := by
  unfold resolveConflict
  split_ifs with hterm
  · obtain ⟨logs,hlogs⟩ := RaftLog.truncateEntries_defined hfirst io.truncate prevLogIndex
    exact ⟨{ n with logs := logs },by rw [hlogs]; rfl⟩
  · exact ⟨n,rfl⟩

/-- What is applied after the commit index was raised. -/
theorem raised_none_iff (hfirst : n.logs.firstIndex = 1) (leaderCommit : ℕ) :
    (n.raiseCommit leaderCommit).applyView = none ↔
      Overruns n.lastApplied
        (if n.commitIndex < leaderCommit then min n.logs.entries.length leaderCommit
          else n.commitIndex) n.logs.entries.length := by
  rw [applyView_none_iff (by rw [raiseCommit_logs]; exact hfirst), raiseCommit_logs]
  unfold raiseCommit
  rw [RaftLog.lastLogIndex_eq hfirst]
  split_ifs <;> rfl

theorem acceptEntries_none_iff (hfirst : n.logs.firstIndex = 1) {entries : List LogEntry}
    (hne : entries ≠ []) (leaderCommit : ℕ) :
    n.acceptEntries cfg io entries leaderCommit = none ↔
      io.append = true ∧ n.commitIndex < leaderCommit ∧
      Overruns n.lastApplied (min (n.logs.entries ++ entries).length leaderCommit)
        (n.logs.entries ++ entries).length := by
  obtain ⟨last,hlast⟩ := Option.ne_none_iff_exists'.mp (mt List.getLast?_eq_none_iff.mp hne)
  unfold acceptEntries RaftLog.appendEntries Persister.persistBatch
  rw [hlast]
  cases hio : io.append with
  | false => simp
  | true =>
    have hraised := raised_none_iff (n := { n with logs := { n.logs with
      entries := n.logs.entries ++ entries
      persister := ⟨n.logs.persister.st.batchWrite (entries.map (fun entry =>
        .put (toString entry.index) (Wire.serialize entry)) ++
          [.put lastIndexKey (toString last.index)])⟩ } }) hfirst leaderCommit
    simp only [if_true, true_and]
    split_ifs with hc
    · rw [if_pos hc] at hraised
      rw [and_iff_right hc, ← hraised]
      generalize RaftNode.applyView _ = view
      cases view <;> simp
    · simp [hc]

/-- A request leaves the node undefined exactly when it overreads. -/
theorem handleAppendEntriesRequest_none_iff (hfirst : n.logs.firstIndex = 1)
    (request : AppendEntriesRequest) :
    n.handleAppendEntriesRequest cfg io request = none ↔ n.Overreads io request := by
  unfold handleAppendEntriesRequest
  by_cases hterm : request.term < n.currentTerm
  · rw [if_pos hterm]
    exact iff_of_false (by simp) fun h => absurd h.1 (Nat.not_le_of_lt hterm)
  rw [if_neg hterm]
  obtain ⟨r,v,vf,p,hobs⟩ := (observeTerm_observed n io (Nat.le_of_not_lt hterm)).eq
  simp only [hobs, Overreads, Nat.le_of_not_lt hterm, true_and]
  by_cases hempty : request.entries = []
  · have hlog : n.receivedLog io request = n.logs.entries := if_pos (Or.inl hempty)
    rw [if_pos (List.isEmpty_iff.mpr hempty), handleHeartbeat, hlog, and_iff_right (Or.inl hempty),
      ← raised_none_iff (n := { n with
        role := r
        votes := v
        leaderId := some request.leaderId
        currentTerm := request.term
        votedFor := vf
        logs := { n.logs with persister := p } }) hfirst request.leaderCommit]
    generalize RaftNode.applyView _ = view
    cases view <;> simp
  rw [if_neg (mt List.isEmpty_iff.mp hempty)]
  change (if n.logs.lastLogIndex < request.prevLogIndex then _ else _) = _ ↔ _
  by_cases hprev : n.logs.lastLogIndex < request.prevLogIndex
  · rw [if_pos hprev]
    refine iff_of_false (by simp) ?_
    rintro ⟨hnil | ⟨hle,-⟩,-⟩
    · exact hempty hnil
    · omega
  rw [if_neg hprev]
  obtain ⟨n₂,hres⟩ : ∃ n₂, RaftNode.resolveConflict { n with
      role := r
      votes := v
      leaderId := some request.leaderId
      currentTerm := request.term
      votedFor := vf
      logs := { n.logs with persister := p } } io request.prevLogIndex request.prevLogTerm =
        some n₂ :=
    resolveConflict_defined (by simp only [hfirst, Nat.one_pos]) _ _
  have hentries := resolveConflict_entries hres
  obtain ⟨old,q,rfl,-⟩ := (resolveConflict_resolved hres).eq
  rw [hres]
  have hlog : io.append = true → n.receivedLog io request = old ++ request.entries := by
    intro hio
    rw [receivedLog, if_neg (by tauto), hio, if_pos rfl]
    congr 1
    rw [show old = _ from hentries]
    exact if_congr (by
      simp only [Cuts, ne_eq, hempty, not_false_eq_true, true_and, Nat.le_of_not_lt hterm]
      rfl) rfl rfl
  refine (acceptEntries_none_iff (by exact hfirst) hempty request.leaderCommit).trans ?_
  constructor
  · rintro ⟨hio,hlt,hover⟩
    rw [hlog hio, if_pos hlt]
    exact ⟨Or.inr ⟨Nat.le_of_not_lt hprev,hio,hlt⟩,hover⟩
  · rintro ⟨hnil | ⟨-,hio,hlt⟩,hover⟩
    · exact absurd hnil hempty
    · rw [hlog hio, if_pos hlt] at hover
      exact ⟨hio,hlt,hover⟩

/-- No other step of a node is undefined. -/
theorem step_none_iff (hfirst : n.logs.firstIndex = 1) (input : Input) :
    n.step cfg io input = none ↔ n.Undefined io input := by
  have hother : ∀ {r}, n.step cfg io input = some r →
      (∀ {sender callback request live},
        input ≠ .receive sender (.appendEntries callback request) live) →
      (∀ {method reqPayload sessionId requestId},
        input ≠ .client method reqPayload sessionId requestId) →
      (n.step cfg io input = none ↔ n.Undefined io input) := by
    intro r hr hreceive hclient
    refine iff_of_false (by rw [hr]; exact nofun) fun h => ?_
    cases h with
    | overreads _ => exact hreceive rfl
    | overruns _ _ _ => exact hclient rfl
  cases input with
  | receive sender body live =>
    cases body with
    | appendEntries callback request =>
      have hnone : n.handleAppendEntriesRequest cfg io request = none ↔ n.Overreads io request :=
        handleAppendEntriesRequest_none_iff hfirst request
      constructor
      · intro h
        refine .overreads (hnone.mp ?_)
        simp only [step, receive] at h
        generalize n.handleAppendEntriesRequest cfg io request = handled at h
        cases handled with
        | none => rfl
        | some r => cases h
      · rintro ⟨hover⟩
        rw [step, receive, hnone.mpr hover]
        rfl
    | requestVote _ | requestVoteReply _ => exact hother rfl (by simp) (by simp)
    | appendEntriesReply callback _ => cases callback <;> exact hother rfl (by simp) (by simp)
  | electionTimeout | heartbeatTimeout => exact hother rfl (by simp) (by simp)
  | client method reqPayload sessionId requestId =>
    refine client_none_iff.trans ⟨?_,?_⟩
    · rintro ⟨hrole,request,hcommand,hlong⟩
      exact .overruns hrole hcommand hlong
    · rintro (_ | ⟨hrole,hcommand,hlong⟩)
      exact ⟨hrole,_,hcommand,hlong⟩

end Defined
end RaftNode

namespace Cluster

section Runs
variable [Protobuf] {C : ClusterConfig} {s : Cluster} {kv : MemberId → Storage}
  {labels : List Label} {l : Label} {m : MemberId} {io : DiskOutcome} {input : Input}

/-- The step of the cluster is undefined where that of its member is. -/
theorem step_none_iff (hfirst : (s.node m).logs.firstIndex = 1) (hm : m ∈ C.members)
    (htaken : s.taken l = some (m,io,input)) :
    s.step C l = none ↔ (s.node m).Undefined io input := by
  suffices hnone : s.step C l = none ↔ (s.node m).step (C.cfg m) io input = none from
    hnone.trans (RaftNode.step_none_iff hfirst input)
  have hact : ∀ network, s.act C m io input network = none ↔
      (s.node m).step (C.cfg m) io input = none := by
    intro network
    unfold act
    generalize (s.node m).step (C.cfg m) io input = next
    cases next <;> simp
  cases l with
  | electionTimeout _ | heartbeatTimeout _ =>
    cases htaken
    rw [step, if_pos hm, hact]
  | client _ _ _ _ _ _ =>
    cases htaken
    rw [step, if_pos hm, hact]
  | deliver k io live =>
    obtain ⟨p,hp,heq⟩ := Option.map_eq_some_iff.mp htaken
    cases heq
    simp only [step, hp, Option.bind_eq_bind, Option.bind_some, hact]
  | lose k => cases htaken

/-- In every state a run reaches, the step a member would take next is undefined exactly when the
member handles an append-entries request on which it overreads, or as leader a command whose entry
overruns the buffer. -/
theorem undefined_iff (h : Cluster.Run C anyStep kv labels s) (hm : m ∈ C.members)
    (htaken : s.taken l = some (m,io,input)) :
    s.step C l = none ↔ (s.node m).Undefined io input :=
  step_none_iff ((Run.addressed h).firstIndex m) hm htaken

/-- As long as every step keeps the indexes in order, only a command whose entry is too long has no
step. -/
theorem Run.defined (h : Cluster.Run C (onStep RaftNode.KeepsIndexes) kv labels s)
    (hm : m ∈ C.members) (htaken : s.taken l = some (m,io,input))
    (hshort : ∀ {method reqPayload sessionId requestId},
      input = .client method reqPayload sessionId requestId → ∀ request ∈ method.command reqPayload,
        RaftNode.Buffered ((s.node m).entryFor request)) :
    ∃ t, s.step C l = some t := by
  have hordered : IndexesOrdered s := Generic.Run.invariant (.init kv)
    (fun hr ho hok hn => ((step_indexesOrdered_iff (Run.addressed hr) ho hn).mp hok).1) h
  refine Option.ne_none_iff_exists'.mp fun hnone => ?_
  have hundefined :=
    (step_none_iff ((Run.addressed (h.mono fun _ _ _ => trivial)).firstIndex m) hm htaken).mp hnone
  cases hundefined with
  | overreads hover => exact (hordered m).not_overreads io _ hover
  | overruns _ hcommand hlong => exact hlong (hshort rfl _ hcommand)

end Runs

section Trio
attribute [local instance] Proto3.protobuf

/-- Members 1 and 3 both lead term 3. Member 2 applies three entries of the one, takes the only one
of the other in their place, takes over a commit index of the first, and with four entries of the
second gets its heartbeat. -/
theorem trio_undefined : ∃ s, Cluster.Run trio anyStep (fun _ => Storage.empty)
    [.electionTimeout 3,delivery 1,delivery 1,putting 3 1,.electionTimeout 1,.electionTimeout 1,
      delivery 6,.electionTimeout 3,.electionTimeout 1,delivery 8,delivery 10,delivery 8,
      delivery 9,putting 1 2,putting 1 3,putting 1 4,delivery 9,delivery 10,delivery 11,
      delivery 12,delivery 12,delivery 12,putting 1 5,delivery 12,delivery 13,
      .heartbeatTimeout 1,putting 3 6,delivery 16,delivery 13,putting 3 7,putting 3 8,
      putting 3 9,delivery 18,delivery 22,.heartbeatTimeout 3,delivery 22] s ∧
    s.step trio (delivery 23) = none := by
  obtain ⟨s,hs,p,hp,hreceiver,request,hrequest,hover⟩ : ∃ s, Cluster.Run trio anyStep
      (fun _ => Storage.empty)
      [.electionTimeout 3,delivery 1,delivery 1,putting 3 1,.electionTimeout 1,.electionTimeout 1,
        delivery 6,.electionTimeout 3,.electionTimeout 1,delivery 8,delivery 10,delivery 8,
        delivery 9,putting 1 2,putting 1 3,putting 1 4,delivery 9,delivery 10,delivery 11,
        delivery 12,delivery 12,delivery 12,putting 1 5,delivery 12,delivery 13,
        .heartbeatTimeout 1,putting 3 6,delivery 16,delivery 13,putting 3 7,putting 3 8,
        putting 3 9,delivery 18,delivery 22,.heartbeatTimeout 3,delivery 22] s ∧
      ∃ p ∈ s.network[23]?, p.receiver = 2 ∧
        ∃ request ∈ p.body.appendRequest, (s.node 2).Overreads .ok request :=
    Generic.Run.of_check (Generic.accepted_of_forall (fun _ _ => trivial) _ _) (by decide +kernel)
  obtain ⟨callback,hbody⟩ := Body.mem_appendRequest.mp hrequest
  have htaken : s.taken (delivery 23) =
      some (2,.ok,.receive p.sender (.appendEntries callback request) []) := by
    rw [delivery, taken, hp, ← hreceiver, ← hbody]
    rfl
  exact ⟨s,hs,(undefined_iff hs (by decide) htaken).mpr (.overreads hover)⟩

end Trio
end Cluster
end Foskv.Raft
