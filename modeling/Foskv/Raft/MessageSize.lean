import Foskv.Raft.AppendReference
import Foskv.Raft.Campaigns
import Foskv.Raft.Logs
import Foskv.Raft.Sizes
import Mathlib.Algebra.Group.Action.Defs
import Mathlib.Algebra.Order.BigOperators.Group.List
import Mathlib.Algebra.Order.Ring.Nat

/-! The AppendEntries requests with entries that a leader sends, against the limit of the
receiver. `RpcConsumer::call` does not check them. -/
namespace Foskv.Raft
open Generic Generic.Proto3

attribute [local instance] Proto3.protobuf

namespace RaftNode

/-- The size of the re-send from `nextIndex` on: the rest of the log behind its header. -/
def resendSize (cfg : RaftConfig) (n : RaftNode) (nextIndex : ℕ) : ℕ :=
  requestSize n.currentTerm cfg.memberId (nextIndex - 1) (n.logs.termAt (nextIndex - 1))
    n.commitIndex ((n.logs.entries.drop (nextIndex - 1)).map LogEntry.size)

/-- The size of the broadcast of a command that the leader puts at the end of its log. -/
def putSize (cfg : RaftConfig) (n : RaftNode) (command : InternalRaftRequest) : ℕ :=
  requestSize n.currentTerm cfg.memberId n.logs.lastLogIndex n.logs.lastLogTerm n.commitIndex
    [n.entrySize command]

/-- What a leader is about to send to the other members fits: the entry of a command it can
store, and what every other member that lags behind misses. -/
def SendsFit (cfg : RaftConfig) (n : RaftNode) (io : DiskOutcome) : Input → Prop
  | .heartbeatTimeout => n.role = .leader → ∀ e ∈ n.nextIndex.entries,
      0 < e.2 ∧ e.2 ≤ n.logs.lastLogIndex →
        e.1 ∈ cfg.peers.map Peer.memberId ∧ e.1 ≠ cfg.memberId → Fits (n.resendSize cfg e.2)
  | .client method reqPayload _ _ => n.role = .leader → io.append = true →
      (∃ m ∈ cfg.peers.map Peer.memberId, m ≠ cfg.memberId) →
        ∀ command ∈ method.command reqPayload, Fits (n.putSize cfg command)
  | _ => True

instance (cfg : RaftConfig) (n : RaftNode) (io : DiskOutcome) (input : Input) :
    Decidable (n.SendsFit cfg io input) :=
  match input with
  | .heartbeatTimeout => inferInstanceAs (Decidable (_ → ∀ e ∈ n.nextIndex.entries, _ → _ → Fits _))
  | .client method reqPayload _ _ => inferInstanceAs (Decidable (_ → _ → (∃ m ∈ _, _) →
      ∀ command ∈ method.command reqPayload, Fits _))
  | .electionTimeout => .isTrue trivial
  | .receive .. => .isTrue trivial

/-- The requests with entries among the events have payloads of at most the limit. -/
def PayloadsFit (events : List Event) : Prop :=
  ∀ receiver request, .sent receiver (.appendEntries .appendEntries request) ∈ events →
    request.payload.length ≤ Rpc.maxRpcMessageSize

section Steps
variable {cfg : RaftConfig} {n n' : RaftNode} {io : DiskOutcome} {input : Input}
  {events : List Event} (hfirst : n.logs.firstIndex = 1)
include hfirst

theorem reissue_fits_iff {nextIndex : ℕ} (hpos : 0 < nextIndex) :
    (n.reissueRequest cfg nextIndex).payload.length ≤ Rpc.maxRpcMessageSize ↔
      Fits (n.resendSize cfg nextIndex) := by
  rw [length_payload_le_iff, reissueRequest_entries hfirst hpos]
  rfl

theorem heartbeat_fits_iff : PayloadsFit (n.startHeartbeatTimeout cfg).2 ↔
    n.SendsFit cfg io .heartbeatTimeout := by
  by_cases hrole : n.role = .leader
  · have hsent : ∀ {receiver request}, .sent receiver (.appendEntries .appendEntries request) ∈
        (n.startHeartbeatTimeout cfg).2 ↔ ∃ e ∈ n.nextIndex.entries,
          (0 < e.2 ∧ e.2 ≤ n.logs.lastLogIndex) ∧
          (e.1 ∈ cfg.peers.map Peer.memberId ∧ e.1 ≠ cfg.memberId) ∧
          receiver = e.1 ∧ request = n.reissueRequest cfg e.2 := by
      intro receiver request
      simp only [startHeartbeatTimeout, hrole, ne_eq, not_true_eq_false, if_false,
        List.mem_append, List.mem_flatten, List.mem_map, mem_broadcast]
      constructor
      · rintro (⟨_,⟨e,he,rfl⟩,hmem⟩ | ⟨_,_,_,heq⟩)
        · obtain ⟨hnext,hpeer,heq⟩ := mem_reissue.mp hmem
          cases heq
          exact ⟨e,he,hnext,by simpa using hpeer,rfl,rfl⟩
        · cases heq
      · rintro ⟨e,he,hnext,hpeer,rfl,rfl⟩
        exact Or.inl ⟨_,⟨e,he,rfl⟩,mem_reissue.mpr ⟨hnext,by simpa using hpeer,rfl⟩⟩
    constructor
    · intro h _ e he hnext hpeer
      exact (reissue_fits_iff hfirst hnext.1).mp
        (h _ _ (hsent.mpr ⟨e,he,hnext,hpeer,rfl,rfl⟩))
    · intro h receiver request hmem
      obtain ⟨e,he,hnext,hpeer,-,rfl⟩ := hsent.mp hmem
      exact (reissue_fits_iff hfirst hnext.1).mpr (h hrole e he hnext hpeer)
  · refine iff_of_true ?_ fun h => absurd h hrole
    intro receiver request hmem
    simp [startHeartbeatTimeout, hrole] at hmem

/-- The broadcast of a command has the size computed before it. -/
theorem broadcast_fits_iff (sessionId requestId : ℕ) (command : InternalRaftRequest)
    (p : Persister) :
    ((n.queueing cfg sessionId requestId command p).newestRequest cfg
        (n.entryFor command)).payload.length ≤ Rpc.maxRpcMessageSize ↔
      Fits (n.putSize cfg command) := by
  have hindex : (n.queueing cfg sessionId requestId command p).logs.prevLogIndex =
      n.logs.lastLogIndex := by
    rw [RaftLog.lastLogIndex_eq hfirst]
    exact extended_prevLogIndex hfirst (n.entryFor command) p
  have hterm : (n.queueing cfg sessionId requestId command p).logs.prevLogTerm =
      n.logs.lastLogTerm := by
    rw [RaftLog.lastLogTerm_eq]
    exact extended_prevLogTerm (n.entryFor command) p
  rw [length_payload_le_iff, putSize, ← size_entryFor, ← hindex, ← hterm]
  rfl

omit hfirst in
/-- With 64-bit numbers, the broadcast of an entry that the persister can buffer is far below the
limit. -/
theorem putSize_fits {command : InternalRaftRequest} (hterm : n.currentTerm < 2^64)
    (hmember : cfg.memberId < 2^64) (hlast : n.logs.lastLogIndex < 2^64)
    (hlastTerm : n.logs.lastLogTerm < 2^64) (hcommit : n.commitIndex < 2^64)
    (hbuffer : n.entrySize command ≤ Persister.bufferSize) : Fits (n.putSize cfg command) := by
  have hnumber : ∀ m < 2^64, numberSize m ≤ 11 := by
    intro m hm
    have hsize : varintSize m ≤ 10 := varintSize_le (by decide) (by omega)
    unfold numberSize
    split_ifs <;> omega
  have hentry : messageSize (n.entrySize command) ≤ 10 + Persister.bufferSize := by
    have hsize : varintSize (n.entrySize command) ≤ 9 :=
      varintSize_le (by decide) (hbuffer.trans_lt (by decide))
    unfold messageSize
    omega
  have h₁ := hnumber _ hterm
  have h₂ := hnumber _ hmember
  have h₃ := hnumber _ hlast
  have h₄ := hnumber _ hlastTerm
  have h₅ := hnumber _ hcommit
  have hlimit : 65 + Persister.bufferSize ≤ Rpc.maxRpcMessageSize := by decide
  refine Or.inl ?_
  simp only [putSize, requestSize, List.map_cons, List.map_nil, List.sum_cons, List.sum_nil]
  omega

omit hfirst in
theorem payloadsFit_answered {sessionId requestId : ℕ} {result : Result (Option Kv.Response)} :
    PayloadsFit [.answered sessionId requestId result] := by
  intro receiver request hmem
  simp at hmem

omit hfirst in
theorem payloadsFit_queueing {sessionId requestId : ℕ} {command : InternalRaftRequest}
    {p : Persister} :
    PayloadsFit (n.queueingEvents cfg sessionId requestId command p) ↔
      ((∃ m ∈ cfg.peers.map Peer.memberId, m ≠ cfg.memberId) →
        ((n.queueing cfg sessionId requestId command p).newestRequest cfg
          (n.entryFor command)).payload.length ≤ Rpc.maxRpcMessageSize) := by
  constructor
  · rintro h ⟨m,hm,hne⟩
    exact h m _ (sent_mem_queueingEvents.mpr ⟨hm,hne,rfl⟩)
  · intro h receiver request hmem
    obtain ⟨hm,hne,heq⟩ := sent_mem_queueingEvents.mp hmem
    cases heq
    exact h ⟨receiver,hm,hne⟩

theorem client_fits_iff {method : KvMethod} {reqPayload : Bytes} {sessionId requestId : ℕ}
    (h : n.client cfg io reqPayload sessionId requestId method = some (n',events)) :
    PayloadsFit events ↔ n.SendsFit cfg io (.client method reqPayload sessionId requestId) := by
  have hhandled := client_handled h
  cases hhandled with
  | unparsed hcommand =>
    refine iff_of_true payloadsFit_answered fun _ _ _ command hsome => ?_
    rw [hcommand] at hsome
    cases hsome
  | redirected _ hrole => exact iff_of_true payloadsFit_answered fun h => absurd h hrole
  | refused _ _ _ hdisk =>
    refine iff_of_true payloadsFit_answered fun _ haccepted => ?_
    rw [hdisk] at haccepted
    cases haccepted
  | queued hcommand hrole _ hdisk _ =>
    rw [payloadsFit_queueing, broadcast_fits_iff hfirst]
    simp [SendsFit, hrole, hdisk, hcommand]

/-- What a step sends fits exactly when it was going to. -/
theorem step_fits_iff (h : n.step cfg io input = some (n',events)) :
    PayloadsFit events ↔ n.SendsFit cfg io input := by
  cases input with
  | electionTimeout | receive sender body live =>
    refine iff_of_true (fun receiver request hmem => ?_) trivial
    obtain ⟨heq,-⟩ | ⟨⟨_,_,_,_,heq⟩,-⟩ := (step_transition h).sentRequest hmem <;> cases heq
  | heartbeatTimeout => rw [← heartbeat_fits_iff hfirst, Option.some.inj h]
  | client method reqPayload sessionId requestId => exact client_fits_iff hfirst h

end Steps
end RaftNode

/-- The receiver drops the connection over a payload exactly when it is over the limit. -/
theorem AppendEntriesRequest.dropped_iff (r : AppendEntriesRequest) (requestId : UInt64)
    (stream : Bytes) :
    (∃ header, Rpc.readRequest (Rpc.requestFormat.writeFrame (Rpc.Call.frame
        ⟨.kRaft,.kRaftAppendEntries,r.payload⟩ requestId) ++ stream) = .error (.tooLarge header)) ↔
      Rpc.maxRpcMessageSize < r.payload.length := by
  have hle : r.payload.length ≤ Proto3.maxSerializedSize := by
    rw [AppendEntriesRequest.payload, Proto3.serializeAsString]
    split_ifs with h
    · exact h
    · exact Nat.zero_le _
  generalize r.payload = payload at hle ⊢
  have hsmall : payload.length < 2^32 := hle.trans_lt (by decide)
  have hsize : Rpc.requestFormat.payloadSize (Rpc.Call.frame
      ⟨.kRaft,.kRaftAppendEntries,payload⟩ requestId).1 = payload.length :=
    UInt32.toNat_ofNat_of_lt' hsmall
  rw [Rpc.readRequest, Frames.HeaderFormat.writeFrame, List.append_assoc,
    Frames.HeaderFormat.readFrame_write, hsize]
  split_ifs with hlt
  · exact iff_of_true ⟨_,rfl⟩ hlt
  · refine iff_of_false ?_ hlt
    rintro ⟨header,h⟩
    split at h <;> cases h

namespace Cluster

/-- The member that takes the step is about to send payloads that fit. -/
def SendsFit (C : ClusterConfig) (s : Cluster) (l : Label) : Prop :=
  ∀ x ∈ s.taken l, (s.node x.1).SendsFit (C.cfg x.1) x.2.1 x.2.2

instance (C : ClusterConfig) (s : Cluster) (l : Label) : Decidable (SendsFit C s l) :=
  inferInstanceAs (Decidable (∀ x ∈ s.taken l, (s.node x.1).SendsFit (C.cfg x.1) x.2.1 x.2.2))

/-- Every request with entries that has been sent has a payload of at most the limit. -/
def PayloadsFit (s : Cluster) : Prop :=
  ∀ m receiver request,
    (m,Event.sent receiver (.appendEntries .appendEntries request)) ∈ s.history →
    request.payload.length ≤ Rpc.maxRpcMessageSize

section Runs
variable {C : ClusterConfig} {s s' : Cluster} {l : Label} {kv : MemberId → Storage}
  {labels : List Label}

theorem payloadsFit_step_iff (hs : Addressed C s) (h : s.step C l = some s') :
    PayloadsFit s' ↔ PayloadsFit s ∧ SendsFit C s l := by
  obtain ⟨hnone,hl⟩ | ⟨m,io,input,n',events,rest,htaken,hn,ha⟩ := step_taken h
  · simp [PayloadsFit, SendsFit, hnone, hl.history]
  · have hiff := RaftNode.step_fits_iff (hs.firstIndex m) hn
    simp only [SendsFit, htaken, Option.mem_some_iff, forall_eq', ← hiff]
    rw [PayloadsFit, ha.history]
    constructor
    · intro hfit
      refine ⟨fun i receiver request hmem => ?_,fun receiver request hmem => ?_⟩
      · exact hfit i receiver request (List.mem_append_left _ hmem)
      · exact hfit m receiver request
          (List.mem_append_right _ (List.mem_map.mpr ⟨_,hmem,rfl⟩))
    · rintro ⟨hold,hnew⟩ i receiver request hmem
      obtain hmem | hmem := List.mem_append.mp hmem
      · exact hold i receiver request hmem
      · obtain ⟨e,he,heq⟩ := List.mem_map.mp hmem
        cases heq
        exact hnew receiver request he

/-- In every state of a run the payloads sent so far fit exactly when at every step of the run
the ones about to be sent do. -/
theorem payloads_fit_iff (h : Cluster.Run C anyStep kv labels s) :
    (∀ ks t, ks <+: labels → Cluster.Run C anyStep kv ks t → PayloadsFit t) ↔
      Cluster.Run C (SendsFit C) kv labels s := by
  refine Generic.Run.always_iff (P := PayloadsFit) ?_ (fun hr hfit hn => ?_) h
  · simp [PayloadsFit, Cluster.init]
  · rw [payloadsFit_step_iff (Run.addressed hr) hn, and_iff_right hfit]

end Runs

section Trio

theorem payloads_fit_trio : ∃ s, Cluster.Run trio anyStep (fun _ => Storage.empty)
    [.electionTimeout 1,delivery 0,delivery 1,putting 1 10,.heartbeatTimeout 1] s ∧
      (s.node 1).logs.lastLogIndex = 1 ∧ PayloadsFit s := by
  obtain ⟨s,hs,hlast⟩ : ∃ s, Cluster.Run trio (SendsFit trio) (fun _ => Storage.empty)
      [.electionTimeout 1,delivery 0,delivery 1,putting 1 10,.heartbeatTimeout 1] s ∧
        (s.node 1).logs.lastLogIndex = 1 :=
    Generic.Run.of_check (by decide) (by decide)
  have hany : Cluster.Run trio anyStep _ _ s := hs.mono fun _ _ _ => trivial
  exact ⟨s,hany,hlast,(payloads_fit_iff hany).mpr hs _ s (List.prefix_refl _) hany⟩

/-- A put whose entry just fits the buffer of the persister. -/
def longPut : Kv.PutRequest := ⟨[1],List.replicate 113 0,∅⟩

/-- Leader 1 gets the put, and its broadcast is lost. -/
def unheard : List Label :=
  [.client 1 .ok .put (Wire.serialize longPut) 7 0,.lose 1,.lose 1]

/-- Leader 1 of the first term has `k` of these entries, member 2 has none. -/
structure Filled (node : MemberId → RaftNode) (k : ℕ) : Prop where
  role : (node 1).role = .leader
  term : (node 1).currentTerm = 1
  commitIndex : (node 1).commitIndex = 0
  length : (node 1).logs.entries.length = k
  sizes : ∀ e ∈ (node 1).logs.entries, 126 ≤ e.size ∧ e.size ≤ 128
  follower : (node 2).currentTerm = 1 ∧ (node 2).logs.entries = []

/-- The entry of the put, wherever it gets its place. -/
theorem entrySize_longPut {n : RaftNode} (hterm : n.currentTerm = 1)
    (hlast : n.logs.lastLogIndex + 1 < 2^21) :
    126 ≤ n.entrySize (.kvPut longPut) ∧ n.entrySize (.kvPut longPut) ≤ 128 := by
  have hcommand : bytesSize (commandSize (.kvPut longPut)) = 122 := by
    have hkey : longPut.key.length = 1 := rfl
    have hvalue : longPut.value.length = 113 := List.length_replicate
    have hunknown : longPut.unknownFields.size = 0 := rfl
    simp only [commandSize, putRequestSize, hkey, hvalue, hunknown]
    decide
  have hsize : varintSize (n.logs.lastLogIndex + 1) ≤ 3 := varintSize_le (by decide) hlast
  have hpos : 1 ≤ varintSize (n.logs.lastLogIndex + 1) := Nat.le_add_left 1 _
  have hone : numberSize 1 = 2 := by decide
  rw [RaftNode.entrySize, hcommand, hterm, hone, numberSize, if_neg (Nat.succ_ne_zero _)]
  omega

/-- The leader puts the entry at the end of its log and broadcasts it to both others. -/
theorem Filled.put {s : Cluster} {k : ℕ} (h : Filled s.node k) (hs : Addressed trio s)
    (hk : k < 2^20) : ∃ s' request,
      s.step trio (.client 1 .ok .put (Wire.serialize longPut) 7 0) = some s' ∧
      Filled s'.node (k + 1) ∧
      s'.network = s.network ++ [⟨1,2,.appendEntries .appendEntries request⟩,
        ⟨1,3,.appendEntries .appendEntries request⟩] ∧
      request.term = 1 ∧ request.prevLogIndex = k ∧ request.entries ≠ [] := by
  have hfirst := hs.firstIndex 1
  have hlast : (s.node 1).logs.lastLogIndex = k := by
    rw [RaftLog.lastLogIndex_eq hfirst, h.length]
  have hsize := entrySize_longPut h.term (by omega)
  have hcommand : KvMethod.put.command (Wire.serialize longPut) = some (.kvPut longPut) := by
    simp only [KvMethod.command, Wire.parse_serialize, Option.map_some]
  obtain ⟨p,hclient⟩ : ∃ p, (s.node 1).client (trio.cfg 1) .ok (Wire.serialize longPut) 7 0 .put =
      some ((s.node 1).queueing (trio.cfg 1) 7 0 (.kvPut longPut) p,
        (s.node 1).queueingEvents (trio.cfg 1) 7 0 (.kvPut longPut) p) :=
    RaftNode.client_queues hcommand h.role ((RaftNode.buffered_entryFor_iff _ _).mpr hsize.2) rfl
  have hprev : ((s.node 1).queueing (trio.cfg 1) 7 0 (.kvPut longPut) p).logs.prevLogIndex = k :=
    (RaftNode.extended_prevLogIndex hfirst ((s.node 1).entryFor (.kvPut longPut)) p).trans h.length
  have hstep := step_client (by decide) hclient
  refine ⟨_,((s.node 1).queueing (trio.cfg 1) 7 0 (.kvPut longPut) p).newestRequest (trio.cfg 1)
    ((s.node 1).entryFor (.kvPut longPut)),hstep,?_,?_,h.term,hprev,List.cons_ne_nil _ _⟩
  · constructor
    · exact h.role
    · exact h.term
    · exact h.commitIndex
    · exact List.length_append.trans (congrArg (· + 1) h.length)
    · intro e he
      obtain he | he := List.mem_append.mp he
      · exact h.sizes e he
      · obtain rfl := List.mem_singleton.mp he
        rw [RaftNode.size_entryFor]
        exact hsize
    · exact h.follower
  · rw [RaftNode.queueingEvents]
    generalize RaftNode.newestRequest _ _ _ = request
    rfl

section Filling
variable {kv : MemberId → Storage} {labels : List Label} {s : Cluster} {k : ℕ}

/-- The broadcast of one put is lost. -/
theorem Filled.unheard (h : Filled s.node k) (hk : k < 2^20) (hone : s.network.length = 1)
    (hs : Cluster.Run trio anyStep kv labels s) :
    ∃ s', Cluster.Run trio anyStep kv (labels ++ Cluster.unheard) s' ∧ Filled s'.node (k + 1) ∧
      s'.network.length = 1 := by
  obtain ⟨s₁,request,hput,hfilled,hnetwork,-,-,-⟩ := h.put (Run.addressed hs) hk
  obtain ⟨first,hfirst⟩ := List.length_eq_one_iff.mp hone
  rw [hfirst] at hnetwork
  have hlose₁ : s₁.step trio (.lose 1) = some { s₁ with network := s₁.network.eraseIdx 1 } := by
    simp [step, hnetwork]
  have hlose₂ : ({ s₁ with network := s₁.network.eraseIdx 1 } : Cluster).step trio (.lose 1) =
      some { s₁ with network := (s₁.network.eraseIdx 1).eraseIdx 1 } := by
    simp [step, hnetwork]
  have hrun := ((hs.snoc trivial hput).snoc trivial hlose₁).snoc trivial hlose₂
  refine ⟨{ s₁ with network := (s₁.network.eraseIdx 1).eraseIdx 1 },
    by simpa [Cluster.unheard] using hrun,hfilled,?_⟩
  change ((s₁.network.eraseIdx 1).eraseIdx 1).length = 1
  rw [hnetwork]
  rfl

/-- The next put is delivered to member 2, which lacks what comes before it, and the rejection to
the leader. -/
theorem Filled.rejected (h : Filled s.node k) (hk : k < 2^20) (hpos : 0 < k)
    (hone : s.network.length = 1) (hs : Cluster.Run trio anyStep kv labels s) :
    ∃ s', Cluster.Run trio anyStep kv (labels ++
        [.client 1 .ok .put (Wire.serialize longPut) 7 0,delivery 1,delivery 2]) s' ∧
      Filled s'.node (k + 1) ∧ (s'.node 1).nextIndex.lookup 2 = some 1 := by
  obtain ⟨s₁,request,hput,hfilled,hnetwork,hterm,hprev,hentries⟩ := h.put (Run.addressed hs) hk
  have hs₁ := hs.snoc trivial hput
  obtain ⟨first,hfirst⟩ := List.length_eq_one_iff.mp hone
  rw [hfirst] at hnetwork
  have hlast : (s₁.node 2).logs.lastLogIndex = 0 := by
    rw [RaftLog.lastLogIndex_eq ((Run.addressed hs₁).firstIndex 2), hfilled.follower.2]
    rfl
  have hrejects : (s₁.node 2).step (trio.cfg 2) .ok
      (.receive 1 (.appendEntries .appendEntries request) []) =
        some ({ s₁.node 2 with leaderId := some request.leaderId },
          [.sent 1 (.appendEntriesReply .appendEntries
            ((s₁.node 2).produceAppendEntriesResponse (trio.cfg 2) false 1))]) := by
    have hterms : (s₁.node 2).currentTerm = request.term := hfilled.follower.1.trans hterm.symm
    have hsame : (s₁.node 2).observeTerm .ok request.term = s₁.node 2 :=
      if_neg (by rw [hterms]; exact lt_irrefl _)
    have hrun := RaftNode.handle_beyond (trio.cfg 2) .ok hterms.le hentries (by omega)
    rw [hsame, hlast] at hrun
    rw [RaftNode.step, RaftNode.receive, hrun]
    rfl
  have hrequest : s₁.network[1]? = some ⟨1,2,.appendEntries .appendEntries request⟩ := by
    rw [hnetwork]
    rfl
  obtain ⟨s₂,hdelivered,hnode₂,hnetwork₂⟩ := step_delivery hrequest hrejects
  rw [hnetwork] at hnetwork₂
  have hreply : s₂.network[2]? = some ⟨2,1,.appendEntriesReply .appendEntries
      ((s₁.node 2).produceAppendEntriesResponse (trio.cfg 2) false 1)⟩ := by
    rw [hnetwork₂]
    rfl
  have hleader : s₂.node 1 = s₁.node 1 := by
    rw [hnode₂]
    rfl
  have hlearns : (s₂.node 1).step (trio.cfg 1) .ok (.receive 2 (.appendEntriesReply .appendEntries
      ((s₁.node 2).produceAppendEntriesResponse (trio.cfg 2) false 1)) []) =
        some ({ s₁.node 1 with nextIndex := (s₁.node 1).nextIndex.insert 2 1 },[]) := by
    have hheader : (s₁.node 2).currentTerm = (s₁.node 1).currentTerm :=
      hfilled.follower.1.trans hfilled.term.symm
    rw [hleader]
    simp [RaftNode.step, RaftNode.receive, RaftNode.handleAppendEntriesResponse, hfilled.role,
      RaftNode.produceAppendEntriesResponse, RaftNode.produceResponseHeader, hheader,
      ClusterConfig.cfg]
  obtain ⟨s₃,hlearned,hnode₃,hnetwork₃⟩ := step_delivery hreply hlearns
  have hrun := (hs₁.snoc trivial hdelivered).snoc trivial hlearned
  refine ⟨s₃,by simpa using hrun,?_,?_⟩
  · rw [hnode₃, hnode₂]
    exact ⟨hfilled.role,hfilled.term,hfilled.commitIndex,hfilled.length,hfilled.sizes,
      hfilled.follower⟩
  · rw [hnode₃]
    exact AList.lookup_insert _

/-- `k` such puts after the election. -/
theorem filled (k : ℕ) (hk : k < 2^20) : ∃ s, Cluster.Run trio anyStep (fun _ => Storage.empty)
    ([.electionTimeout 1,delivery 0,delivery 1] ++ (List.replicate k unheard).flatten) s ∧
      Filled s.node k ∧ s.network.length = 1 := by
  induction k with
  | zero =>
    obtain ⟨s,hs,hrole,hterm,hcommit,hlog,hfollower,hone⟩ : ∃ s, Cluster.Run trio anyStep
        (fun _ => Storage.empty) [.electionTimeout 1,delivery 0,delivery 1] s ∧
        (s.node 1).role = .leader ∧ (s.node 1).currentTerm = 1 ∧ (s.node 1).commitIndex = 0 ∧
        (s.node 1).logs.entries = [] ∧
        ((s.node 2).currentTerm = 1 ∧ (s.node 2).logs.entries = []) ∧ s.network.length = 1 :=
      Generic.Run.of_check (Generic.accepted_of_forall (fun _ _ => trivial) _ _) (by decide)
    refine ⟨s,hs,⟨hrole,hterm,hcommit,?_,?_,hfollower⟩,hone⟩
    · rw [hlog]
      rfl
    · rw [hlog]
      exact fun _ he => absurd he List.not_mem_nil
  | succ k ih =>
    obtain ⟨s,hs,hfilled,hone⟩ := ih (by omega)
    obtain ⟨s',hs',hfilled',hone'⟩ := hfilled.unheard (by omega) hone hs
    refine ⟨s',?_,hfilled',hone'⟩
    rw [List.replicate_succ', List.flatten_append, List.flatten_singleton, ← List.append_assoc]
    exact hs'

/-- The entries that a member misses are re-sent in one request, whatever its size. -/
theorem Filled.resendSize (h : Filled s.node (2^15)) (hfirst : (s.node 1).logs.firstIndex = 1) :
    ¬Fits ((s.node 1).resendSize (trio.cfg 1) 1) := by
  have hsizes : ∀ size ∈ ((s.node 1).logs.entries.map LogEntry.size).map messageSize,
      128 ≤ size ∧ size ≤ 131 := by
    intro size hsize
    obtain ⟨_,hmem,rfl⟩ := List.mem_map.mp hsize
    obtain ⟨e,he,rfl⟩ := List.mem_map.mp hmem
    obtain ⟨hlow,hhigh⟩ := h.sizes e he
    generalize e.size = length at hlow hhigh ⊢
    obtain rfl | rfl | rfl : length = 126 ∨ length = 127 ∨ length = 128 := by omega
    all_goals decide
  have hlow := List.card_nsmul_le_sum _ 128 fun size hsize => (hsizes size hsize).1
  have hhigh := List.sum_le_card_nsmul _ 131 fun size hsize => (hsizes size hsize).2
  rw [List.length_map, List.length_map, h.length, smul_eq_mul] at hlow hhigh
  have hterm : (s.node 1).logs.termAt 0 = 0 := by
    rw [RaftLog.termAt, hfirst]
    rfl
  have hone : numberSize 1 = 2 := by decide
  have hzero : numberSize 0 = 0 := rfl
  change ¬Fits (requestSize (s.node 1).currentTerm 1 0 ((s.node 1).logs.termAt 0)
    (s.node 1).commitIndex ((s.node 1).logs.entries.map LogEntry.size))
  rw [hterm, h.term, h.commitIndex, requestSize, hone, hzero, Fits]
  have hlimit : Rpc.maxRpcMessageSize = 2^22 := rfl
  have hmax : Proto3.maxSerializedSize = 2^31 - 1 := rfl
  omega

end Filling

/-- Member 2 misses puts of four mebibytes. When it is back, it rejects the next one, and the
heartbeat sends it all of them at once. -/
theorem resend_over_limit : ∃ s, Cluster.Run trio anyStep (fun _ => Storage.empty)
    ([.electionTimeout 1,delivery 0,delivery 1] ++ (List.replicate (2^15 - 1) unheard).flatten ++
      [.client 1 .ok .put (Wire.serialize longPut) 7 0,delivery 1,delivery 2,
        .heartbeatTimeout 1]) s ∧ ¬PayloadsFit s := by
  obtain ⟨s,hs,hfilled,hone⟩ := filled (2^15 - 1) (by decide)
  obtain ⟨s',hs',hrejected,hnext⟩ := hfilled.rejected (by decide) (by decide) hone hs
  have hfilled' : Filled s'.node (2^15) := hrejected
  obtain ⟨t,ht⟩ : ∃ t, s'.step trio (.heartbeatTimeout 1) = some t := ⟨_,rfl⟩
  have hrun := hs'.snoc trivial ht
  rw [List.append_assoc] at hrun
  refine ⟨t,hrun,fun hfit => ?_⟩
  have hfirst := (Run.addressed hs').firstIndex 1
  have hlast : (s'.node 1).logs.lastLogIndex = 2^15 := by
    rw [RaftLog.lastLogIndex_eq hfirst, hfilled'.length]
  have hsends := ((payloadsFit_step_iff (Run.addressed hs') ht).mp hfit).2 _ rfl
  refine hfilled'.resendSize hfirst (hsends hfilled'.role ⟨2,1⟩ (AList.mem_lookup_iff.mp hnext)
    ⟨Nat.one_pos,?_⟩ (by decide))
  rw [hlast]
  decide

end Trio
end Cluster
end Foskv.Raft
