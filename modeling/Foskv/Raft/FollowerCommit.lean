import Foskv.Generic.History
import Foskv.Raft.Indexes
import Foskv.Raft.Matching

/-! What a follower commits against the log its leader had when it sent the request. A request
with entries is checked where they start, a heartbeat is not checked at all. -/
namespace Foskv.Raft
open Generic

/-- The packets in flight, each with the log its sender had when it sent it. -/
abbrev SenderLogs := List (Packet × List LogEntry)

theorem RaftLog.termAt_of_getElem {l : RaftLog} (hfirst : l.firstIndex = 1) {i : ℕ}
    (hpos : 0 < i) {e : LogEntry} (he : l.entries[i - 1]? = some e) : l.termAt i = e.term := by
  have hlt := (List.getElem?_eq_some_iff.mp he).1
  have htake : lastTermOf (l.entries.take (i - 1 + 1)) = e.term := lastTerm_take he
  rw [Nat.sub_add_cancel hpos] at htake
  rw [termAt_eq hfirst (by omega), htake]

/-- The commit index after a heartbeat of the current term that raises it. -/
theorem RaftNode.heartbeat_commit [Protobuf] {cfg : RaftConfig} {n n' : RaftNode}
    {io : DiskOutcome} {sender : MemberId} {callback : Callback} {request : AppendEntriesRequest}
    {live : List ℕ} {events : List Event}
    (h : n.step cfg io (.receive sender (.appendEntries callback request) live) =
      some (n',events)) (hempty : request.entries = []) (hterm : n.currentTerm ≤ request.term)
    (hlt : n.commitIndex < min n.logs.lastLogIndex request.leaderCommit) :
    n'.commitIndex = min n.logs.lastLogIndex request.leaderCommit := by
  obtain ⟨⟨n₁,es,response⟩,hn,h⟩ := Option.bind_eq_some_iff.mp h
  cases h
  unfold handleAppendEntriesRequest at hn
  obtain ⟨r,v,vf,p,hobs⟩ := (observeTerm_observed n io hterm).eq
  rw [if_neg (Nat.not_lt.mpr hterm)] at hn
  simp only [hobs, hempty, List.isEmpty_nil, if_true] at hn
  obtain ⟨x,hx,hn⟩ := Option.bind_eq_some_iff.mp hn
  cases hn
  obtain ⟨sm,la,heq⟩ := (applyView_viewed hx).eq
  rw [heq]
  exact congrArg RaftNode.commitIndex (if_pos (hlt.trans_le (Nat.min_le_right _ _)))

namespace Cluster

def recordLogs (_ : Cluster) (l : Label) (s' : Cluster) (flight : SenderLogs) : SenderLogs :=
  remaining l flight ++ (s'.network.drop (remaining l flight).length).map fun p =>
    (p,(s'.node p.sender).logs.entries)

/-- A run of the cluster with the senders' logs beside its states. -/
abbrev LoggedRun [Protobuf] (C : ClusterConfig) (ok : Cluster × SenderLogs → Label → Prop)
    (kv : MemberId → Storage) : List Label → Cluster × SenderLogs → Prop :=
  Generic.Run (recording (Cluster.step C) recordLogs) ok (Cluster.init kv,[])

/-- Up to index `c` both logs have entries of the same terms and commands. -/
def SameUpTo (c : ℕ) (log log' : List LogEntry) : Prop :=
  ∀ i < c, ∃ e ∈ log[i]?, ∃ e' ∈ log'[i]?, e.term = e'.term ∧ e.command = e'.command

/-- Where the step is a member's handling of an append-entries request that raises its commit
index, its log is up to there the one the leader had. -/
def CommitsChecked (w : Cluster × SenderLogs) (l : Label) (w' : Cluster × SenderLogs) : Prop :=
  ∀ k io live, l = .deliver k io live → ∀ p log, w.2[k]? = some (p,log) →
    p.body.appendRequest.isSome →
    (w.1.node p.receiver).commitIndex < (w'.1.node p.receiver).commitIndex →
      SameUpTo (w'.1.node p.receiver).commitIndex (w'.1.node p.receiver).logs.entries log

/-- A heartbeat of the sender's log that raises the commit index raises it to an index where the
sender had an entry, of the term the own log has there. -/
def HeartbeatFits (n : RaftNode) (log : List LogEntry) (request : AppendEntriesRequest) : Prop :=
  request.entries = [] → n.currentTerm ≤ request.term →
    n.commitIndex < min n.logs.lastLogIndex request.leaderCommit →
      ∃ e ∈ log[min n.logs.lastLogIndex request.leaderCommit - 1]?,
        e.term = n.logs.termAt (min n.logs.lastLogIndex request.leaderCommit)

instance (n : RaftNode) (log : List LogEntry) (request : AppendEntriesRequest) :
    Decidable (HeartbeatFits n log request) :=
  inferInstanceAs (Decidable (_ → _ → _ → ∃ e ∈ log[_]?, _ = _))

/-- Every heartbeat delivered fits. -/
def HeartbeatsFit (w : Cluster × SenderLogs) : Label → Prop
  | .deliver k _ _ => ∀ x ∈ w.2[k]?, ∀ request ∈ x.1.body.appendRequest,
    HeartbeatFits (w.1.node x.1.receiver) x.2 request
  | _ => True

instance (w : Cluster × SenderLogs) (l : Label) : Decidable (HeartbeatsFit w l) :=
  match l with
  | .deliver k _ _ => inferInstanceAs (Decidable (∀ x ∈ w.2[k]?, ∀ request ∈
      x.1.body.appendRequest, HeartbeatFits (w.1.node x.1.receiver) x.2 request))
  | .electionTimeout _ => .isTrue trivial
  | .heartbeatTimeout _ => .isTrue trivial
  | .client .. => .isTrue trivial
  | .lose _ => .isTrue trivial

/-- The recorded logs belong to the packets in flight, and a request is as it was made from the
log of its sender. -/
structure Recorded (w : Cluster × SenderLogs) : Prop where
  network : w.2.map Prod.fst = w.1.network
  written : ∀ {p log}, (p,log) ∈ w.2 → ∀ {callback request},
    p.body = .appendEntries callback request → log <+: w.1.termLog request.term
  continues : ∀ {p log}, (p,log) ∈ w.2 → ∀ {callback request},
    p.body = .appendEntries callback request → request.entries ≠ [] →
      Continues (fun _ => log) request

namespace Recorded

theorem init (kv : MemberId → Storage) : Recorded (Cluster.init kv,[]) where
  network := rfl
  written h := by simp at h
  continues h := by simp at h

section Steps
variable [Protobuf] {C : ClusterConfig} {w w' : Cluster × SenderLogs} {l : Label}

omit [Protobuf] in
theorem lose (h : Recorded w) (hloses : Loses w.1 w'.1)
    (hnet : w'.1.network = remaining l w.1.network)
    (hlogs : w'.2 = recordLogs w.1 l w'.1 w.2) : Recorded w' := by
  have hlen : (remaining l w.2).length = (remaining l w.1.network).length := by
    rw [← h.network, ← map_remaining, List.length_map]
  have hkept : w'.2 = remaining l w.2 := by
    rw [hlogs, recordLogs, hnet, hlen, List.drop_length, List.map_nil, List.append_nil]
  have hL : w'.1.termLog = w.1.termLog := by rw [Cluster.termLog, hloses.history]
  constructor
  · rw [hkept, map_remaining, h.network, hnet]
  · intro p log hmem callback request hbody
    rw [hL]
    exact h.written (remaining_subset l _ (hkept ▸ hmem)) hbody
  · intro p log hmem callback request hbody
    exact h.continues (remaining_subset l _ (hkept ▸ hmem)) hbody

variable {m : MemberId} {input : Input} {n' : RaftNode} {events : List Event}

/-- The packets of a step are recorded with the log their sender has after it. -/
theorem recordLogs_acts (h : Recorded w)
    (hacts : Acts C w.1 l m input n' events (remaining l w.1.network) w'.1)
    (hlogs : w'.2 = recordLogs w.1 l w'.1 w.2) :
    w'.2 = remaining l w.2 ++
      (events.filterMap (packetOf m)).map fun p => (p,(w'.1.node p.sender).logs.entries) := by
  have hlen : (remaining l w.2).length = (remaining l w.1.network).length := by
    rw [← h.network, ← map_remaining, List.length_map]
  rw [hlogs, recordLogs, hacts.network, hlen, List.drop_left]

theorem act (h : Recorded w) (hm' : Matched w'.1) (hs : Addressed C w.1)
    (hstep : LogStep w.1 m input n' w'.1.termLog)
    (hacts : Acts C w.1 l m input n' events (remaining l w.1.network) w'.1)
    (hlogs : w'.2 = recordLogs w.1 l w'.1 w.2) : Recorded w' := by
  have hflight := h.recordLogs_acts hacts hlogs
  have hmem : ∀ {p log}, (p,log) ∈ w'.2 → (p,log) ∈ w.2 ∨
      (p.sender = m ∧ .sent p.receiver p.body ∈ events ∧ log = n'.logs.entries) := by
    intro p log hp
    rw [hflight] at hp
    obtain hp | hp := List.mem_append.mp hp
    · exact Or.inl (remaining_subset l _ hp)
    · obtain ⟨q,hq,heq⟩ := List.mem_map.mp hp
      cases heq
      obtain ⟨e,he,hpe⟩ := List.mem_filterMap.mp hq
      cases e <;> simp only [packetOf, Option.some.injEq, reduceCtorEq] at hpe
      subst hpe
      exact Or.inr ⟨rfl,he,by rw [hacts.node_self]⟩
  constructor
  · rw [hflight, List.map_append, map_remaining, h.network, List.map_map, hacts.network]
    congr 1
    exact List.map_id _
  · intro p log hp callback request hbody
    obtain hp | ⟨rfl,he,rfl⟩ := hmem hp
    · exact (h.written hp hbody).trans (hstep.termLog_grows _)
    · rw [hbody] at he
      obtain ⟨-,hrole,-,hterm⟩ := ((hacts.origin he).continues (hs.firstIndex p.sender)).1
      have hlead := hm'.leader p.sender
      rw [hacts.node_self] at hlead
      rw [hlead hrole, hterm]
  · intro p log hp callback request hbody hne
    obtain hp | ⟨rfl,he,rfl⟩ := hmem hp
    · exact h.continues hp hbody hne
    · rw [hbody] at he
      exact ((hacts.origin he).continues (hs.firstIndex p.sender)).2 hne

end Steps
end Recorded

section Runs
variable [Protobuf] {C : ClusterConfig} {w w' : Cluster × SenderLogs} {l : Label}
  {kv : MemberId → Storage} {labels : List Label}

theorem Run.recorded (h : LoggedRun C (fun w => onDelivery Orderly w.1) kv labels w) :
    Recorded w := by
  induction h with
  | nil => exact .init kv
  | @snoc ls w l w' before accepted next ih =>
    obtain ⟨hstep,hlogs⟩ := recording_eq_some.mp next
    have hrun : Cluster.Run C (onDelivery Orderly) kv ls w.1 := before.forget fun _ _ h => h
    obtain ⟨-,hnet,hloses⟩ | ⟨m,io,input,n',events,-,-,hacts⟩ := step_remaining hstep
    · exact ih.lose hloses hnet hlogs
    · obtain ⟨hlog,hm'⟩ := Run.logStep (fun _ _ h => h) hrun accepted hacts
      exact ih.act hm' (Run.addressed hrun) hlog hacts hlogs

omit [Protobuf] in
theorem sameUpTo_of_take {log log' : List LogEntry} {c : ℕ} (hc : c ≤ log.length)
    (h : log'.take c = log.take c) : SameUpTo c log log' := by
  intro i hi
  have hget := List.getElem?_eq_getElem (hi.trans_le hc)
  exact ⟨_,hget,_,(getElem?_of_take_eq h hi).trans hget,rfl,rfl⟩

section Request
variable {k : ℕ} {io : DiskOutcome} {live : List ℕ} {p : Packet} {log : List LogEntry}
  {callback : Callback} {request : AppendEntriesRequest} {n' : RaftNode} {events : List Event}
  {rest : List Packet}

/-- A request with entries commits nothing but what its sender had. -/
theorem replicated_checked (hr : Recorded w) (hm : Matched w.1) (hs : Addressed C w.1)
    (hok : onDelivery Orderly w.1 (.deliver k io live)) (hk : w.2[k]? = some (p,log))
    (hbody : p.body = .appendEntries callback request) (hne : request.entries ≠ [])
    (hacts : Acts C w.1 (.deliver k io live) p.receiver (.receive p.sender p.body live) n' events
      rest w'.1)
    {old : List LogEntry} (hold : (w.1.node p.receiver).Trimmed request old)
    (hlog : n'.logs.entries = old ++ request.entries) : n'.logs.entries <+: log := by
  obtain ⟨rfl,hlast,hterm⟩ := hacts.trimmed (Orderly.exactAppend _ _ hok) (by rw [hbody]) hne hold
  have hmem := List.mem_of_getElem? hk
  obtain ⟨before,hpre,hlen,hbefore⟩ := hr.continues hmem hbody hne
  have hfirst := hs.firstIndex p.receiver
  rw [RaftLog.lastLogIndex_eq hfirst] at hlast
  rw [hlast, RaftLog.termAt_eq hfirst le_rfl, List.take_length] at hterm
  have hanch := (hm.log request.term).of_isPrefix
    (((List.prefix_append _ _).trans hpre).trans (hr.written hmem hbody))
  have heq : before = (w.1.node p.receiver).logs.entries :=
    hanch.eq_of_lastTerm (hm.node p.receiver) (hlen.trans hlast) (hbefore.trans hterm.symm)
  rw [hlog, ← heq]
  exact hpre

omit [Protobuf] in
/-- A heartbeat that fits commits nothing but what its sender had. -/
theorem heartbeat_checked (hr : Recorded w) (hm : Matched w.1) (hs : Addressed C w.1)
    (hmem : (p,log) ∈ w.2) (hbody : p.body = .appendEntries callback request) {c : ℕ}
    (hpos : 0 < c) (hc : c ≤ (w.1.node p.receiver).logs.entries.length) {e : LogEntry}
    (he : log[c - 1]? = some e) (hterm : e.term = (w.1.node p.receiver).logs.termAt c) :
    SameUpTo c (w.1.node p.receiver).logs.entries log := by
  have hlt : c - 1 < (w.1.node p.receiver).logs.entries.length := by omega
  obtain ⟨hlt',rfl⟩ := List.getElem?_eq_some_iff.mp he
  have hanch := (hm.log request.term).of_isPrefix (hr.written hmem hbody)
  have hown := RaftLog.termAt_of_getElem (hs.firstIndex p.receiver) hpos
    (List.getElem?_eq_getElem hlt)
  have htake := hanch.matching (hm.node p.receiver) hlt' hlt (hterm.trans hown)
  rw [Nat.sub_add_cancel hpos] at htake
  exact sameUpTo_of_take hc htake

/-- A delivered request commits what the leader had exactly when it fits. -/
theorem delivered_iff (hr : Recorded w) (hm : Matched w.1) (hs : Addressed C w.1)
    (hok : onDelivery Orderly w.1 (.deliver k io live)) (hk : w.2[k]? = some (p,log))
    (hbody : p.body = .appendEntries callback request)
    (hn : (w.1.node p.receiver).step (C.cfg p.receiver) io (.receive p.sender p.body live) =
      some (n',events))
    (hacts : Acts C w.1 (.deliver k io live) p.receiver (.receive p.sender p.body live) n' events
      rest w'.1) :
    ((w.1.node p.receiver).commitIndex < n'.commitIndex →
        SameUpTo n'.commitIndex n'.logs.entries log) ↔
      HeartbeatFits (w.1.node p.receiver) log request := by
  have hfirst := hs.firstIndex p.receiver
  have hfirst' : n'.logs.firstIndex = 1 := hacts.transition.firstIndex.trans hfirst
  have hkept : request.entries = [] →
      n'.logs.entries = (w.1.node p.receiver).logs.entries := by
    intro hempty
    rw [hbody] at hn
    rw [RaftNode.step_receivedLog hn, RaftNode.receivedLog, if_pos (Or.inl hempty)]
  constructor
  · intro hchecked hempty hterm hlt
    rw [hbody] at hn
    have hcommit := RaftNode.heartbeat_commit hn hempty hterm hlt
    have hpos : 0 < min (w.1.node p.receiver).logs.lastLogIndex request.leaderCommit := by omega
    rw [hcommit, hkept hempty] at hchecked
    obtain ⟨e,he,e',he',heq,-⟩ := hchecked hlt _ (Nat.sub_one_lt hpos.ne')
    exact ⟨e',he',by rw [← heq, RaftLog.termAt_of_getElem hfirst hpos he]⟩
  · intro hfits hraise
    have hprog := hacts.transition.progress
    rw [hbody] at hprog
    cases hprog with
    | kept hcommit _ _ _ => omega
    | followed hterm hlog hcommit _ _ =>
      obtain hcommit | ⟨-,hcommit⟩ := hcommit
      · omega
      have hle : n'.commitIndex ≤ n'.logs.entries.length := by
        rw [← RaftLog.lastLogIndex_eq hfirst', hcommit]
        exact Nat.min_le_left _ _
      by_cases hempty : request.entries = []
      · rw [RaftLog.lastLogIndex_eq hfirst', hkept hempty, ← RaftLog.lastLogIndex_eq hfirst]
          at hcommit
        rw [hcommit] at hraise
        obtain ⟨e,he,heq⟩ := hfits hempty hterm hraise
        rw [hkept hempty] at hle ⊢
        rw [← hcommit] at he heq hraise
        exact heartbeat_checked hr hm hs (List.mem_of_getElem? hk) hbody (by omega) hle he heq
      · obtain ⟨old,hold,hlog⟩ := hlog hempty
        have hpre := replicated_checked hr hm hs hok hk hbody hempty hacts hold hlog
        exact sameUpTo_of_take hle (take_of_isPrefix hpre hle)

end Request

/-- A step commits what the leader had exactly when the heartbeat it delivers, if any, fits. -/
theorem commitsChecked_iff (h : LoggedRun C (fun w => onDelivery Orderly w.1) kv labels w)
    (hok : onDelivery Orderly w.1 l)
    (hnext : recording (Cluster.step C) recordLogs w l = some w') :
    CommitsChecked w l w' ↔ HeartbeatsFit w l := by
  have hr := Run.recorded h
  have hrun : Cluster.Run C (onDelivery Orderly) kv labels w.1 := h.forget fun _ _ h => h
  have hm := Run.matched (fun _ _ h => h) hrun
  have hs := Run.addressed hrun
  have hstep := (recording_eq_some.mp hnext).1
  cases l with
  | deliver k io live =>
    cases hk : w.2[k]? with
    | none =>
      refine iff_of_true (fun k' io' live' hl p log hp => ?_) fun x hx => ?_
      · cases hl
        simp [hk] at hp
      · simp [hk] at hx
    | some x =>
      obtain ⟨p,log⟩ := x
      have hdel : w.1.network[k]? = some p := by
        rw [← hr.network, List.getElem?_map, hk]
        rfl
      have htaken : w.1.taken (.deliver k io live) =
          some (p.receiver,io,.receive p.sender p.body live) := by
        rw [taken, hdel]
        rfl
      obtain ⟨hnone,-⟩ | ⟨m,io',input,n',events,rest,ht,hn,hacts⟩ := step_taken hstep
      · simp [htaken] at hnone
      cases htaken.symm.trans ht
      by_cases hbody : ∃ callback request, p.body = .appendEntries callback request
      · obtain ⟨callback,request,hbody⟩ := hbody
        have hiff := delivered_iff hr hm hs hok hk hbody hn hacts
        constructor
        · intro hchecked x hx request' hreq
          obtain rfl := Option.some.inj (hk.symm.trans hx)
          obtain rfl : request = request' := by simpa [hbody, Body.appendRequest] using hreq
          refine hiff.mp fun hraise => ?_
          have hsame := hchecked k io live rfl p log hk (by rw [hbody]; rfl)
          rw [hacts.node_self] at hsame
          exact hsame hraise
        · intro hfit k' io' live' hl q log' hq _ hraise
          cases hl
          cases hk.symm.trans hq
          rw [hacts.node_self] at hraise ⊢
          exact hiff.mpr (hfit _ hk request (by rw [hbody]; rfl)) hraise
      · refine iff_of_true (fun k' io' live' hl q log' hq hsome => ?_) fun x hx request hreq => ?_
        · cases hl
          cases hk.symm.trans hq
          obtain ⟨request,hreq⟩ := Option.isSome_iff_exists.mp hsome
          obtain ⟨callback,hb⟩ := Body.mem_appendRequest.mp hreq
          exact absurd ⟨callback,request,hb⟩ hbody
        · obtain rfl := Option.some.inj (hk.symm.trans hx)
          obtain ⟨callback,hb⟩ := Body.mem_appendRequest.mp hreq
          exact absurd ⟨callback,request,hb⟩ hbody
  | _ =>
    refine iff_of_true (fun k io live hl => ?_) trivial
    cases hl

/-- Along a run in which members vote once and append at the end only, followers commit what
their leaders had exactly when every heartbeat delivered fits. -/
theorem commits_checked_iff {s : Cluster}
    (h : Cluster.Run C (onDelivery Orderly) kv labels s) :
    ∃ flight, LoggedRun C (fun w => onDelivery Orderly w.1) kv labels (s,flight) ∧
      (EveryStep (recording (Cluster.step C) recordLogs) (Cluster.init kv,[]) CommitsChecked
          labels ↔
        LoggedRun C (fun w l => onDelivery Orderly w.1 l ∧ HeartbeatsFit w l) kv labels
          (s,flight)) := by
  obtain ⟨flight,hlogged⟩ := h.record recordLogs []
  exact ⟨flight,hlogged,hlogged.everyStep_iff commitsChecked_iff⟩

end Runs

section Trio
attribute [local instance] Proto3.protobuf

/-- Member 2 gets an entry by a request and commits it on the next heartbeat. -/
theorem commits_checked_trio : ∃ s, Cluster.Run trio (onDelivery Orderly)
    (fun _ => Storage.empty)
    [.electionTimeout 1,delivery 0,delivery 1,putting 1 10,delivery 1,delivery 2,
      .heartbeatTimeout 1,delivery 2] s ∧ (s.node 2).commitIndex = 1 ∧
    EveryStep (recording (Cluster.step trio) recordLogs) (Cluster.init fun _ => Storage.empty,[])
      CommitsChecked
      [.electionTimeout 1,delivery 0,delivery 1,putting 1 10,delivery 1,delivery 2,
        .heartbeatTimeout 1,delivery 2] := by
  obtain ⟨⟨s,seen⟩,hw,hcommit⟩ : ∃ w, LoggedRun trio
      (fun w l => onDelivery Orderly w.1 l ∧ HeartbeatsFit w l) (fun _ => Storage.empty)
      [.electionTimeout 1,delivery 0,delivery 1,putting 1 10,delivery 1,delivery 2,
        .heartbeatTimeout 1,delivery 2] w ∧ (w.1.node 2).commitIndex = 1 :=
    Generic.Run.of_check (by decide) (by decide)
  have hs : Cluster.Run trio (onDelivery Orderly) _ _ s := hw.forget fun _ _ h => h.1
  obtain ⟨flight,hlogged,hiff⟩ := commits_checked_iff hs
  obtain rfl : seen = flight := congrArg Prod.snd (hw.det hlogged)
  exact ⟨s,hs,hcommit,hiff.mpr hw⟩

/-- Member 1 holds an entry of term 1 that nobody else got. The heartbeat of member 3, whose only
entry is of term 2, makes member 1 commit its own. -/
theorem leftover_committed : (∃ s, Cluster.Run trio
      (fun s l => s.InOrder l ∧ onDelivery Orderly s l) (fun _ => Storage.empty)
      ([.electionTimeout 1,delivery 0,delivery 1,putting 1 1,.electionTimeout 2,delivery 4,
        delivery 4,putting 2 2,delivery 5,delivery 5,.heartbeatTimeout 2,delivery 6,
        .electionTimeout 3,delivery 6,delivery 7,delivery 7,.heartbeatTimeout 3,delivery 6] ++
        [delivery 6]) s) ∧
    ¬EveryStep (recording (Cluster.step trio) recordLogs)
      (Cluster.init fun _ => Storage.empty,[]) CommitsChecked
      ([.electionTimeout 1,delivery 0,delivery 1,putting 1 1,.electionTimeout 2,delivery 4,
        delivery 4,putting 2 2,delivery 5,delivery 5,.heartbeatTimeout 2,delivery 6,
        .electionTimeout 3,delivery 6,delivery 7,delivery 7,.heartbeatTimeout 3,delivery 6] ++
        [delivery 6]) := by
  obtain ⟨w',hw',hcommit',hterm'⟩ : ∃ w, LoggedRun trio
      (fun w l => w.1.InOrder l ∧ onDelivery Orderly w.1 l) (fun _ => Storage.empty)
      ([.electionTimeout 1,delivery 0,delivery 1,putting 1 1,.electionTimeout 2,delivery 4,
        delivery 4,putting 2 2,delivery 5,delivery 5,.heartbeatTimeout 2,delivery 6,
        .electionTimeout 3,delivery 6,delivery 7,delivery 7,.heartbeatTimeout 3,delivery 6] ++
        [delivery 6]) w ∧ (w.1.node 1).commitIndex = 1 ∧
      (w.1.node 1).logs.entries.map LogEntry.term = [1] :=
    Generic.Run.of_check (by decide) (by decide)
  obtain ⟨w,hw,⟨⟨p,log⟩,hx,hreceiver,hsome,hterm⟩,hcommit⟩ : ∃ w, LoggedRun trio
      (fun _ _ => True) (fun _ => Storage.empty)
      [.electionTimeout 1,delivery 0,delivery 1,putting 1 1,.electionTimeout 2,delivery 4,
        delivery 4,putting 2 2,delivery 5,delivery 5,.heartbeatTimeout 2,delivery 6,
        .electionTimeout 3,delivery 6,delivery 7,delivery 7,.heartbeatTimeout 3,delivery 6] w ∧
      (∃ x ∈ w.2[6]?, x.1.receiver = 1 ∧ x.1.body.appendRequest.isSome ∧
        x.2.map LogEntry.term = [2]) ∧ (w.1.node 1).commitIndex = 0 :=
    Generic.Run.of_check (Generic.accepted_of_forall (fun _ _ => trivial) _ _) (by decide)
  refine ⟨⟨w'.1,hw'.forget fun _ _ h => h⟩,fun h => ?_⟩
  obtain ⟨u,hu,-,hnext⟩ := hw'.snoc_inv
  obtain rfl : u = w := hu.det hw
  have hsame := h _ _ u w' (List.prefix_refl _) hw hnext 6 .ok [] rfl p log hx hsome
  simp only at hreceiver
  rw [hreceiver, hcommit, hcommit'] at hsame
  obtain ⟨e,he,e',he',heq,-⟩ := hsame Nat.zero_lt_one 0 Nat.zero_lt_one
  have h₁ := congrArg (fun ts : List ℕ => ts[0]?) hterm'
  have h₂ := congrArg (fun ts : List ℕ => ts[0]?) hterm
  simp only [List.getElem?_map, Option.mem_def.mp he] at h₁
  simp only [List.getElem?_map, Option.mem_def.mp he'] at h₂
  simp at h₁ h₂
  omega

end Trio
end Cluster
end Foskv.Raft
