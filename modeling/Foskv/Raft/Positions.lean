import Foskv.Raft.DiskLog
import Foskv.Raft.Indexes

/-! Positions of a log as log indexes. An append goes to the end of the log wherever its request
starts, so the two drift apart. -/
namespace Foskv.Raft
open Generic

namespace RaftLog

/-- The positions of the vector are the indexes of its entries, and every access by index
reaches the entry of that index. -/
structure Positioned (l : RaftLog) : Prop where
  entries : ∀ k e, l.entries[k]? = some e → e.index = l.firstIndex + k
  lastLogIndex : ∀ e, l.entries.getLast? = some e → e.index = l.lastLogIndex
  entryAt : ∀ i e, l.entryAt i = .ok e → e.index = i
  termAt : ∀ i, l.firstIndex ≤ i → i ≤ l.lastLogIndex →
    ∃ e ∈ l.entries, e.index = i ∧ l.termAt i = e.term
  entriesView : ∀ i j view es, l.entriesView i j = .ok view → view.read l.entries = some es →
    ∀ k e, es[k]? = some e → e.index = i + k

theorem Positioned.of_indexed {l : RaftLog} (hfirst : 0 < l.firstIndex)
    (h : IndexedFrom l.firstIndex l.entries) : l.Positioned where
  entries := h
  lastLogIndex e he := by
    rw [List.getLast?_eq_getElem?] at he
    have hlt := (List.getElem?_eq_some_iff.mp he).1
    have := h _ e he
    simp only [RaftLog.lastLogIndex]
    omega
  entryAt i e he := by
    unfold RaftLog.entryAt at he
    split_ifs at he with hr
    split at he
    · cases he
    · rename_i e' hget
      cases he
      have := h _ e hget
      omega
  termAt i hle hlast := by
    have hlt : i - l.firstIndex < l.entries.length := by
      rw [RaftLog.lastLogIndex] at hlast
      omega
    have hget := List.getElem?_eq_getElem hlt
    refine ⟨l.entries[i - l.firstIndex],List.getElem_mem hlt,?_,?_⟩
    · have := h _ _ hget
      omega
    · rw [RaftLog.termAt, if_neg (by omega), hget]
  entriesView i j view es hview hread k e he := by
    unfold RaftLog.entriesView at hview
    split_ifs at hview with hr
    cases hview
    unfold Span.read at hread
    split_ifs at hread
    cases hread
    have hsub := ((h.drop (i - l.firstIndex)).take _) k e he
    omega

end RaftLog

namespace RaftNode

/-- A request whose entries the store takes finds the log ending where they start, and nothing
is cut for it. -/
def AppendsAtEnd (n : RaftNode) (io : DiskOutcome) : Input → Prop
  | .receive _ body _ => ∀ request ∈ body.appendRequest, request.entries ≠ [] →
    n.currentTerm ≤ request.term → request.prevLogIndex ≤ n.logs.lastLogIndex →
      io.append = true → request.prevLogIndex = n.logs.lastLogIndex ∧ ¬n.Cuts request
  | _ => True

instance (n : RaftNode) (io : DiskOutcome) (input : Input) : Decidable (n.AppendsAtEnd io input) :=
  match input with
  | .receive _ body _ => inferInstanceAs (Decidable (∀ request ∈ body.appendRequest,
      _ → _ → _ → _ → _ ∧ ¬_))
  | .electionTimeout => .isTrue trivial
  | .heartbeatTimeout => .isTrue trivial
  | .client .. => .isTrue trivial

section Steps
variable {cfg : RaftConfig} {n n' : RaftNode} {io : DiskOutcome} {input : Input}
  {request : AppendEntriesRequest} {events : List Event}

theorem receivedLog_indexed_iff (hfirst : n.logs.firstIndex = 1)
    (hn : IndexedFrom 1 n.logs.entries)
    (hreq : IndexedFrom (request.prevLogIndex + 1) request.entries) :
    IndexedFrom 1 (n.receivedLog io request) ↔ (request.entries ≠ [] →
      n.currentTerm ≤ request.term → request.prevLogIndex ≤ n.logs.lastLogIndex →
        io.append = true → request.prevLogIndex = n.logs.lastLogIndex ∧ ¬n.Cuts request) := by
  unfold receivedLog
  split_ifs with hguard hcut hio hio
  · exact iff_of_true hn fun hne hterm hprev _ => by
      obtain h | h | h := hguard
      · exact absurd h hne
      · omega
      · omega
  · have hnot : ¬IndexedFrom (1 + (n.logs.entries.take
        (request.prevLogIndex - n.logs.firstIndex)).length) request.entries := by
      intro h
      have hstart := h.start_eq hreq hcut.1
      obtain ⟨-,-,hge,-,-⟩ := hcut
      rw [List.length_take] at hstart
      omega
    refine iff_of_false (fun h => hnot (IndexedFrom.append_iff.mp h).2) fun h => ?_
    exact (h hcut.1 hcut.2.1 hcut.2.2.2.1 hio).2 hcut
  · rw [List.append_nil]
    exact iff_of_true (hn.take _) fun _ _ _ h => absurd h hio
  · rw [RaftLog.lastLogIndex_eq hfirst] at hguard ⊢
    rw [IndexedFrom.append_iff]
    constructor
    · rintro ⟨-,h⟩ hne - - -
      have hstart := h.start_eq hreq hne
      exact ⟨by omega,hcut⟩
    · intro h
      have hend := (h (by tauto) (by omega) (by omega) hio).1
      refine ⟨hn,?_⟩
      rw [Nat.add_comm, ← hend]
      exact hreq
  · rw [List.append_nil]
    exact iff_of_true hn fun _ _ _ h => absurd h hio

variable [Protobuf]

/-- The entries of a sent request carry the indexes after its `prev_log_index`. -/
theorem Transition.sent_indexed (h : Transition cfg n input n' events)
    (hfirst : n.logs.firstIndex = 1) (hn : IndexedFrom 1 n.logs.entries) {receiver : MemberId}
    {callback : Callback}
    (he : .sent receiver (.appendEntries callback request) ∈ events) :
    IndexedFrom (request.prevLogIndex + 1) request.entries := by
  obtain ⟨-,hempty | ⟨nextIndex,hpos,hle,rfl⟩⟩ | ⟨-,command,p,rfl⟩ := h.sentRequest he
  · rw [hempty]
    exact .nil
  · rw [reissueRequest_entries hfirst hpos]
    have hdrop := hn.drop (nextIndex - 1)
    rw [Nat.add_comm] at hdrop
    exact hdrop
  · refine IndexedFrom.single_iff.mpr ?_
    change n.logs.lastLogIndex + 1 = (n.extended _ p).logs.prevLogIndex + 1
    rw [extended_prevLogIndex hfirst, RaftLog.lastLogIndex_eq hfirst]

/-- A step of a node whose entries stand at their indexes, on requests whose entries are
consecutive, keeps them there exactly when it appends at the end. -/
theorem step_indexed_iff (h : n.step cfg io input = some (n',events))
    (hfirst : n.logs.firstIndex = 1) (hn : IndexedFrom 1 n.logs.entries)
    (hreq : ∀ sender body live, input = .receive sender body live →
      ∀ request ∈ body.appendRequest, IndexedFrom (request.prevLogIndex + 1) request.entries) :
    n.AppendsAtEnd io input ↔ IndexedFrom 1 n'.logs.entries := by
  have hlc := (step_transition h).logChange
  have hkept : n'.logs.entries = n.logs.entries → IndexedFrom 1 n'.logs.entries := fun heq =>
    heq ▸ hn
  cases input with
  | electionTimeout | heartbeatTimeout =>
    cases hlc with
    | kept hlog _ => exact iff_of_true trivial (hkept hlog)
  | client method reqPayload sessionId requestId =>
    cases hlc with
    | kept hlog _ => exact iff_of_true trivial (hkept hlog)
    | queued _ _ _ hlog _ =>
      refine iff_of_true trivial ?_
      rw [hlog, IndexedFrom.append_iff, IndexedFrom.single_iff, RaftLog.lastLogIndex_eq hfirst]
      exact ⟨hn,Nat.add_comm _ _⟩
  | receive sender body live =>
    cases body with
    | appendEntries callback request =>
      rw [step_receivedLog h, receivedLog_indexed_iff hfirst hn (hreq _ _ _ rfl request rfl)]
      simp [AppendsAtEnd, Body.appendRequest]
    | requestVote _ | appendEntriesReply _ _ =>
      cases hlc with
      | kept hlog _ =>
        exact iff_of_true (by simp [AppendsAtEnd, Body.appendRequest]) (hkept hlog)
    | requestVoteReply _ =>
      refine iff_of_true (by simp [AppendsAtEnd, Body.appendRequest]) ?_
      cases hlc with
      | kept hlog _ => exact hkept hlog
      | elected _ => exact hn

end Steps
end RaftNode

namespace Cluster

/-- Positions are indexes in every log, and the entries of requests in flight are consecutive. -/
structure Indexed (s : Cluster) : Prop where
  node : ∀ m, IndexedFrom 1 (s.node m).logs.entries
  requests : ∀ p ∈ s.network, ∀ request ∈ p.body.appendRequest,
    IndexedFrom (request.prevLogIndex + 1) request.entries

/-- The logs of all members stand at their indexes. -/
def LogsPositioned (s : Cluster) : Prop := ∀ m, (s.node m).logs.Positioned

section Runs
variable [Protobuf] {C : ClusterConfig} {s s' : Cluster} {l : Label}
  {kv : MemberId → Storage} {labels : List Label}

omit [Protobuf] in
theorem Indexed.init (kv : MemberId → Storage) : Indexed (Cluster.init kv) where
  node _ := .nil
  requests := by simp [Cluster.init]

theorem Indexed.step_iff (hi : Indexed s) (hs : Addressed C s) (h : s.step C l = some s') :
    onStep RaftNode.AppendsAtEnd s l ↔ ∀ m, IndexedFrom 1 (s'.node m).logs.entries := by
  obtain ⟨hnone,hl⟩ | ⟨m,io,input,n',events,rest,htaken,hn,ha⟩ := step_taken h
  · refine iff_of_true (by simp [onStep, hnone]) fun m => ?_
    rw [hl.node]
    exact hi.node m
  · have hiff := RaftNode.step_indexed_iff hn (hs.firstIndex m) (hi.node m)
      fun sender body live heq => hi.requests _ (ha.packet_mem heq)
    simp only [onStep, htaken, Option.mem_some_iff, forall_eq', hiff]
    constructor
    · intro hnew i
      by_cases him : i = m
      · rw [him, ha.node_self]
        exact hnew
      · rw [ha.node_ne him]
        exact hi.node i
    · intro hall
      rw [← ha.node_self]
      exact hall m

theorem Indexed.step (hi : Indexed s) (hs : Addressed C s) (h : s.step C l = some s')
    (hok : onStep RaftNode.AppendsAtEnd s l) : Indexed s' where
  node := (hi.step_iff hs h).mp hok
  requests p hp request hreq := by
    obtain hl | ⟨m,input,n',events,rest,ha⟩ := step_cases h
    · exact hi.requests p (hl.network.subset hp) request hreq
    · obtain hp | ⟨-,he⟩ := ha.mem_network hp
      · exact hi.requests p hp request hreq
      · obtain ⟨callback,hbody⟩ := Body.mem_appendRequest.mp hreq
        rw [hbody] at he
        exact ha.transition.sent_indexed (hs.firstIndex m) (hi.node m) he

theorem Run.indexed (h : Cluster.Run C (onStep RaftNode.AppendsAtEnd) kv labels s) :
    Indexed s :=
  Generic.Run.invariant (.init kv)
    (fun hr hi hok hn => hi.step (Run.addressed hr) hn hok) h

omit [Protobuf] in
theorem logsPositioned_iff (hs : Addressed C s) :
    LogsPositioned s ↔ ∀ m, IndexedFrom 1 (s.node m).logs.entries := by
  refine forall_congr' fun m => ⟨fun h => ?_,fun h => ?_⟩
  · have hentries := h.entries
    rw [hs.firstIndex m] at hentries
    exact hentries
  · refine .of_indexed ?_ ?_
    · rw [hs.firstIndex m]
      exact Nat.one_pos
    · rw [hs.firstIndex m]
      exact h

/-- In every state of a run positions are log indexes exactly when every append of the run
goes to the end of a log that ends where the request starts. -/
theorem logs_positioned_iff (h : Cluster.Run C anyStep kv labels s) :
    (∀ ks t, ks <+: labels → Cluster.Run C anyStep kv ks t → LogsPositioned t) ↔
      Cluster.Run C (onStep RaftNode.AppendsAtEnd) kv labels s := by
  refine Generic.Run.always_iff (P := LogsPositioned) ?_ (fun hr _ hn => ?_) h
  · exact (logsPositioned_iff (Addressed.init (C := C) kv)).mpr (Indexed.init kv).node
  · have hnext : Cluster.Run C anyStep kv _ _ := (hr.mono fun _ _ _ => trivial).snoc trivial hn
    rw [(Run.indexed hr).step_iff (Run.addressed hr) hn,
      logsPositioned_iff (Run.addressed hnext)]

end Runs

section Trio
attribute [local instance] Proto3.protobuf

theorem logs_positioned_trio : ∃ s, Cluster.Run trio anyStep (fun _ => Storage.empty)
    [.electionTimeout 1,delivery 0,delivery 1,putting 1 10,putting 1 20,delivery 1,delivery 2] s ∧
      (s.node 2).logs.lastLogIndex = 2 ∧ LogsPositioned s := by
  obtain ⟨s,hs,hlast⟩ : ∃ s, Cluster.Run trio (onStep RaftNode.AppendsAtEnd)
      (fun _ => Storage.empty)
      [.electionTimeout 1,delivery 0,delivery 1,putting 1 10,putting 1 20,delivery 1,delivery 2]
        s ∧ (s.node 2).logs.lastLogIndex = 2 :=
    Generic.Run.of_check (by decide) (by decide)
  have hany : Cluster.Run trio anyStep _ _ s := hs.mono fun _ _ _ => trivial
  exact ⟨s,hany,hlast,(logs_positioned_iff hany).mpr hs _ s (List.prefix_refl _) hany⟩

/-- Member 1 leads term 1 and its put reaches member 2 only, which then leads term 2. Member 3
rejects the put of member 2 and takes both entries from a re-send. From then on each of its
entries is sent twice: as it is put, and by the next heartbeat. -/
theorem entry_at_wrong_index : ∃ s, Cluster.Run trio InOrder (fun _ => Storage.empty)
    [.electionTimeout 1,delivery 0,delivery 1,putting 1 10,delivery 1,.electionTimeout 2,
      delivery 4,delivery 4,putting 2 20,delivery 5,delivery 5,.heartbeatTimeout 2,delivery 5,
      delivery 6,putting 2 30,.heartbeatTimeout 2,delivery 9,delivery 9] s ∧
    ¬LogsPositioned s := by
  obtain ⟨s,hs,hfirst,hentry⟩ : ∃ s, Cluster.Run trio InOrder (fun _ => Storage.empty)
      [.electionTimeout 1,delivery 0,delivery 1,putting 1 10,delivery 1,.electionTimeout 2,
        delivery 4,delivery 4,putting 2 20,delivery 5,delivery 5,.heartbeatTimeout 2,delivery 5,
        delivery 6,putting 2 30,.heartbeatTimeout 2,delivery 9,delivery 9] s ∧
      (s.node 3).logs.firstIndex = 1 ∧
      ((s.node 3).logs.entries[3]?.map LogEntry.index) = some 3 :=
    Generic.Run.of_check (by decide) (by decide)
  refine ⟨s,hs,fun h => ?_⟩
  obtain ⟨e,he,hindex⟩ := Option.map_eq_some_iff.mp hentry
  have hwrong := (h 3).entries 3 e he
  omega

end Trio
end Cluster
end Foskv.Raft
