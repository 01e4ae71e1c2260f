import Foskv.Generic.History
import Foskv.Raft.KvHandlers
import Foskv.Raft.Matching

/-! Redirects of clients: whom a node takes for the leader, and from whom it has heard in its
term. -/
namespace Foskv.Raft
open Generic

/-- For every append-entries request received: the receiver, the sender and the term. -/
abbrev Received := List (MemberId × MemberId × ℕ)

/-- What a member receives with an input. -/
def Input.receipt (m : MemberId) : Input → Option (MemberId × MemberId × ℕ)
  | .receive sender body _ => body.appendRequest.map fun request => (m,sender,request.term)
  | _ => none

namespace RaftNode

/-- The input raises the term and is no append-entries request. -/
def RaisesAlone (n : RaftNode) : Input → Prop
  | .electionTimeout => n.role ≠ .leader
  | .receive _ (.requestVote request) _ => n.currentTerm < request.term
  | .receive _ (.requestVoteReply response) _ => n.currentTerm < response.header.term
  | .receive _ (.appendEntriesReply _ response) _ =>
    n.role = .leader ∧ n.currentTerm < response.header.term
  | _ => False

/-- No leader is known where the term is raised without one. -/
def KeepsLeader (n : RaftNode) (_ : DiskOutcome) (input : Input) : Prop :=
  n.RaisesAlone input → n.leaderId = none

instance (n : RaftNode) : (input : Input) → Decidable (n.RaisesAlone input)
  | .electionTimeout => inferInstanceAs (Decidable (n.role ≠ .leader))
  | .receive _ (.requestVote _) _ => inferInstanceAs (Decidable (_ < _))
  | .receive _ (.requestVoteReply _) _ => inferInstanceAs (Decidable (_ < _))
  | .receive _ (.appendEntriesReply _ _) _ => inferInstanceAs (Decidable (_ ∧ _))
  | .receive _ (.appendEntries _ _) _ => .isFalse id
  | .heartbeatTimeout => .isFalse id
  | .client .. => .isFalse id

instance (n : RaftNode) (io : DiskOutcome) (input : Input) : Decidable (n.KeepsLeader io input) :=
  inferInstanceAs (Decidable (_ → _))

/-- What a step does to the term and the leader known in it. -/
inductive Hears (n : RaftNode) (n' : RaftNode) : Input → Prop
  | kept {input} (leaderId : n'.leaderId = n.leaderId) (term : n'.currentTerm = n.currentTerm)
      (hfresh : ∀ m, ∀ x ∈ input.receipt m, x.2.2 < n.currentTerm) : Hears n n' input
  | told {sender callback request live} (leaderId : n'.leaderId = some request.leaderId)
      (term : n'.currentTerm = request.term) :
      Hears n n' (.receive sender (.appendEntries callback request) live)
  | alone {input} (hraises : n.RaisesAlone input) (leaderId : n'.leaderId = n.leaderId)
      (term : n.currentTerm < n'.currentTerm) (role : n'.role ≠ .leader)
      (hnone : ∀ m, input.receipt m = none) : Hears n n' input

section Steps
variable [Protobuf] {cfg : RaftConfig} {n n' : RaftNode} {io : DiskOutcome} {input : Input}
  {events : List Event}

omit [Protobuf] in
theorem Hears.receipt_le (h : n.Hears n' input) {m : MemberId} {x : MemberId × MemberId × ℕ}
    (hx : input.receipt m = some x) : x.2.2 ≤ n'.currentTerm := by
  cases h with
  | kept _ hterm hfresh =>
    rw [hterm]
    exact (hfresh m x hx).le
  | told _ hterm =>
    obtain rfl := Option.some.inj hx
    exact hterm.ge
  | alone _ _ _ _ hnone =>
    rw [hnone] at hx
    cases hx

/-- A request of at least the own term sets the leader. -/
theorem appendEntries_hears {sender : MemberId} {callback : Callback}
    {request : AppendEntriesRequest} {live : List ℕ}
    (h : n.step cfg io (.receive sender (.appendEntries callback request) live) =
      some (n',events)) :
    n.Hears n' (.receive sender (.appendEntries callback request) live) := by
  have htransition := step_transition h
  -- the reply tells this branch from the idle one
  obtain ⟨⟨_,es,response⟩,-,h⟩ := Option.bind_eq_some_iff.mp h
  have hevents : es ++ [.sent sender (.appendEntriesReply callback response)] = events :=
    congrArg Prod.snd (Option.some.inj h)
  cases htransition with
  | idle hidle =>
    subst hevents
    obtain hidle | ⟨_,_,_,hidle⟩ := hidle
    · simp at hidle
    · have hlast := congrArg List.getLast? hidle
      simp at hlast
  | appendStale hterm =>
    refine .kept rfl rfl fun m x hx => ?_
    obtain rfl := Option.some.inj hx
    exact hterm
  | @heartbeatReceived _ _ _ _ n₁ _ _ hobs _ hview =>
    obtain ⟨c,hc⟩ := raiseCommit_eq { n₁ with leaderId := some request.leaderId }
      request.leaderCommit
    rw [hc] at hview
    obtain ⟨sm,la,rfl⟩ := hview.eq
    exact .told rfl hobs.le.2
  | appendBeyond hobs _ _ => exact .told rfl hobs.le.2
  | appendFailed hobs _ _ hres =>
    obtain ⟨old,p,rfl,-⟩ := hres.eq
    exact .told rfl hobs.le.2
  | appended hobs _ _ hres hset =>
    obtain ⟨old,p,rfl,-⟩ := hres.eq
    obtain ⟨sm,la,c,rfl⟩ := hset.eq
    exact .told rfl hobs.le.2
  | lowered _ hreply => obtain ⟨r,hr⟩ | ⟨c,r,hr⟩ := hreply <;> cases hr

omit [Protobuf] in
theorem RaisesAlone.receipt (h : n.RaisesAlone input) (m : MemberId) : input.receipt m = none := by
  cases input with
  | electionTimeout => rfl
  | heartbeatTimeout => rfl
  | client _ _ _ _ => rfl
  | receive sender body live =>
    cases body with
    | appendEntries callback request => exact h.elim
    | requestVote request => rfl
    | requestVoteReply response => rfl
    | appendEntriesReply callback response => rfl

/-- Where the term is raised alone, the leader of an earlier term stays known. -/
theorem RaisesAlone.step (hraises : n.RaisesAlone input)
    (h : n.step cfg io input = some (n',events)) :
    n'.leaderId = n.leaderId ∧ n.currentTerm < n'.currentTerm ∧ n'.role ≠ .leader := by
  have hlowered : ∀ {term persisted}, n.currentTerm < term → n' = n.stepDown io term persisted →
      n'.leaderId = n.leaderId ∧ n.currentTerm < n'.currentTerm ∧ n'.role ≠ .leader := by
    intro term persisted hlt heq
    obtain ⟨p,hp⟩ := stepDown_eq n io term persisted
    rw [heq, hp]
    exact ⟨rfl,hlt,nofun⟩
  cases input with
  | electionTimeout =>
    have hstart : n.startElectionTimeout cfg = (n.startElection cfg,_) := if_neg hraises
    obtain rfl : n.startElection cfg = n' :=
      congrArg Prod.fst (hstart.symm.trans (Option.some.inj h))
    exact ⟨rfl,Nat.lt_succ_self _,nofun⟩
  | heartbeatTimeout => exact hraises.elim
  | client method reqPayload sessionId requestId => exact hraises.elim
  | receive sender body live =>
    cases body with
    | appendEntries callback request => exact hraises.elim
    | requestVote request =>
      have hlt : n.currentTerm < request.term := hraises
      have hnode : (n.handleRequestVoteRequest cfg io request).1 =
          n.stepDown io request.term request.term := by
        rw [handleRequestVoteRequest, if_neg hlt.not_gt]
        exact if_pos hlt
      exact hlowered hlt ((congrArg Prod.fst (Option.some.inj h)).symm.trans hnode)
    | requestVoteReply response =>
      have hlt : n.currentTerm < response.header.term := hraises
      have hnode : n.handleRequestVoteResponse cfg io response =
          (n.stepDown io response.header.term n.currentTerm,[]) := by
        rw [handleRequestVoteResponse, if_neg hlt.not_gt, if_pos hlt]
      exact hlowered hlt (congrArg Prod.fst ((Option.some.inj h).symm.trans hnode))
    | appendEntriesReply callback response =>
      obtain ⟨hrole,hlt⟩ := hraises
      have hpass : ¬(response.header.term < n.currentTerm ∨ n.role ≠ .leader) :=
        not_or.mpr ⟨hlt.not_gt,not_not.mpr hrole⟩
      cases callback with
      | heartbeat =>
        have hnode : n.handleHeartbeatResponse io response =
            (n.stepDown io response.header.term response.header.term,[]) := by
          rw [handleHeartbeatResponse, if_neg hpass, if_pos hlt]
        exact hlowered hlt (congrArg Prod.fst ((Option.some.inj h).symm.trans hnode))
      | appendEntries =>
        have hnode : n.handleAppendEntriesResponse io live response =
            (n.stepDown io response.header.term response.header.term,[]) := by
          simp only [handleAppendEntriesResponse, if_neg hpass, if_pos hlt]
        exact hlowered hlt (congrArg Prod.fst ((Option.some.inj h).symm.trans hnode))

theorem appendEntriesReply_of_not_leader {sender : MemberId} {callback : Callback}
    {response : AppendEntriesResponse} {live : List ℕ} (hrole : n.role ≠ .leader)
    (h : n.step cfg io (.receive sender (.appendEntriesReply callback response) live) =
      some (n',events)) : n' = n := by
  cases callback with
  | heartbeat =>
    have hnode : n.handleHeartbeatResponse io response = (n,[]) := if_pos (.inr hrole)
    exact congrArg Prod.fst ((Option.some.inj h).symm.trans hnode)
  | appendEntries =>
    have hnode : n.handleAppendEntriesResponse io live response = (n,[]) := if_pos (.inr hrole)
    exact congrArg Prod.fst ((Option.some.inj h).symm.trans hnode)

/-- What a node hears in a step. -/
theorem step_hears (h : n.step cfg io input = some (n',events)) : n.Hears n' input := by
  by_cases hraises : n.RaisesAlone input
  · obtain ⟨hleader,hterm,hrole⟩ := hraises.step h
    exact .alone hraises hleader hterm hrole fun m => hraises.receipt m
  have htransition := step_transition h
  cases input with
  | electionTimeout =>
    cases htransition with
    | idle _ => exact .kept rfl rfl nofun
    | election hrole => exact absurd hrole hraises
  | heartbeatTimeout =>
    cases htransition with
    | idle _ => exact .kept rfl rfl nofun
    | heartbeat _ => exact .kept rfl rfl nofun
  | client method reqPayload sessionId requestId =>
    cases htransition with
    | idle _ => exact .kept rfl rfl nofun
    | queued _ => exact .kept rfl rfl nofun
  | receive sender body live =>
    cases body with
    | appendEntries callback request => exact appendEntries_hears h
    | requestVote request =>
      have hobserved : ∀ {n₁}, n.Observed request.term n₁ →
          n.Hears n₁ (.receive sender (.requestVote request) live) := by
        rintro n₁ (⟨-,rfl⟩ | ⟨hlt,-⟩)
        · exact .kept rfl rfl nofun
        · exact absurd hlt hraises
      cases htransition with
      | idle _ => exact .kept rfl rfl nofun
      | voteStale _ => exact .kept rfl rfl nofun
      | voteDenied hobs _ => exact hobserved hobs
      | voteGranted hobs _ _ => exact hobserved hobs
      | lowered hlt _ => exact absurd hlt hraises
    | requestVoteReply response =>
      cases htransition with
      | idle _ => exact .kept rfl rfl nofun
      | lowered hlt _ => exact absurd hlt hraises
      | voteCounted _ _ _ _ => exact .kept rfl rfl nofun
      | elected _ _ _ _ => exact .kept rfl rfl nofun
    | appendEntriesReply callback response =>
      by_cases hrole : n.role = .leader
      · cases htransition with
        | idle _ => exact .kept rfl rfl nofun
        | lowered hlt _ => exact absurd ⟨hrole,hlt⟩ hraises
        | appendRejected _ _ _ => exact .kept rfl rfl nofun
        | appendKnown _ _ _ _ => exact .kept rfl rfl nofun
        | committed _ _ _ _ => exact .kept rfl rfl nofun
      · obtain rfl := appendEntriesReply_of_not_leader hrole h
        exact .kept rfl rfl nofun

end Steps

section Answers
variable [Protobuf] {cfg : RaftConfig} {n n' : RaftNode} {io : DiskOutcome} {method : KvMethod}
  {reqPayload : Bytes} {sessionId requestId : ℕ} {events : List Event} {answer : Kv.Response}

/-- What a node that is not leader answers to a request it can parse. -/
theorem client_redirects (hrole : n.role ≠ .leader)
    (h : n.client cfg io reqPayload sessionId requestId method = some (n',events))
    (hanswer : .answered sessionId requestId (.ok (some answer)) ∈ events) :
    answer.header.redirect = n.redirect cfg := by
  have hhandled := client_handled h
  cases hhandled with
  | unparsed _ => simp at hanswer
  | redirected _ _ =>
    obtain rfl : answer = _ := by simpa using hanswer
    rw [KvMethod.response_header]
    rfl
  | refused _ hleader _ _ | queued _ hleader _ _ _ => exact absurd hleader hrole

variable (cfg io sessionId requestId) in
theorem client_answers_put (hrole : n.role ≠ .leader) (request : Kv.PutRequest) :
    n.client cfg io (Wire.serialize request) sessionId requestId .put = some (n,[.answered
      sessionId requestId (.ok (some (.put ⟨false,.needRedirect,n.redirect cfg⟩)))]) := by
  simp [client, handleKvPutRequest, handleKvRequest, hrole, produceRpcResponseHeader]

omit [Protobuf] in
/-- A redirect is the address of the known leader. -/
theorem redirect_eq_some {redirect : Rpc.Redirect} : n.redirect cfg = some redirect ↔
    ∃ leaderId leader, n.leaderId = some leaderId ∧ cfg.findPeer leaderId = some leader ∧
      redirect = ⟨leader.host,leader.port⟩ := by
  simp only [RaftNode.redirect, Option.bind_eq_bind, Option.bind_eq_some_iff, Option.pure_def,
    Option.some.injEq]
  constructor
  · rintro ⟨leaderId,hid,leader,hleader,rfl⟩
    exact ⟨leaderId,leader,hid,hleader,rfl⟩
  · rintro ⟨leaderId,leader,hid,hleader,rfl⟩
    exact ⟨leaderId,hid,leader,hleader,rfl⟩

end Answers
end RaftNode

namespace Cluster

/-- What is received in a step. -/
def receipts (s : Cluster) (l : Label) : Received :=
  ((s.taken l).bind fun x => x.2.2.receipt x.1).toList

def recordReceipts (s : Cluster) (l : Label) (_ : Cluster) (received : Received) : Received :=
  received ++ s.receipts l

/-- A run of the cluster with the requests received beside its states. -/
abbrev ReceivingRun [Protobuf] (C : ClusterConfig) (ok : Cluster × Received → Label → Prop)
    (kv : MemberId → Storage) : List Label → Cluster × Received → Prop :=
  Generic.Run (recording (Cluster.step C) recordReceipts) ok (Cluster.init kv,[])

/-- Every redirect of a client names a member from which the node has received an append-entries
request of its current term. -/
def RedirectsToLeader [Protobuf] (C : ClusterConfig) (w : Cluster × Received) : Prop :=
  ∀ m, (w.1.node m).role ≠ .leader →
    ∀ io method reqPayload sessionId requestId n' events answer,
      (w.1.node m).client (C.cfg m) io reqPayload sessionId requestId method = some (n',events) →
      .answered sessionId requestId (.ok (some answer)) ∈ events →
      ∀ redirect ∈ answer.header.redirect, ∃ p ∈ C.peers, redirect = ⟨p.host,p.port⟩ ∧
        (m,p.memberId,(w.1.node m).currentTerm) ∈ w.2

/-- The member that the redirects of a node name. -/
structure RedirectsTo (C : ClusterConfig) (s : Cluster) (m : MemberId) (p : Peer) : Prop where
  role : (s.node m).role ≠ .leader
  leaderId : (s.node m).leaderId = some p.memberId
  redirect : (s.node m).redirect (C.cfg m) = some ⟨p.host,p.port⟩

/-- No two members of one term redirect to each other. -/
def NoMutualRedirects (C : ClusterConfig) (s : Cluster) : Prop :=
  ∀ p ∈ C.peers, ∀ q ∈ C.peers,
    (s.node p.memberId).currentTerm = (s.node q.memberId).currentTerm →
      ¬(RedirectsTo C s p.memberId q ∧ RedirectsTo C s q.memberId p)

/-- What holds of the requests in flight and received in every run: they come from leaders. -/
structure Heard (C : ClusterConfig) (w : Cluster × Received) : Prop where
  past : ∀ {m i term}, (m,i,term) ∈ w.2 → term ≤ (w.1.node m).currentTerm
  led : ∀ {m i term}, (m,i,term) ∈ w.2 → ∃ log, (i,.becameLeader term log) ∈ w.1.history
  flight : ∀ p ∈ w.1.network, ∀ request ∈ p.body.appendRequest,
    ∃ log, (p.sender,.becameLeader request.term log) ∈ w.1.history
  member : ∀ m i, (w.1.node m).leaderId = some i → i ∈ C.members

/-- The known leader was heard from in the current term. -/
def Known (w : Cluster × Received) : Prop :=
  ∀ m i, (w.1.node m).leaderId = some i → (m,i,(w.1.node m).currentTerm) ∈ w.2

section Steps
variable [Protobuf] {C : ClusterConfig} {w w' : Cluster × Received} {l : Label}
  {m : MemberId} {io : DiskOutcome} {input : Input} {n' : RaftNode} {events : List Event}
  {rest : List Packet}

omit [Protobuf] in
theorem mem_recordReceipts (htaken : w.1.taken l = some (m,io,input))
    (hreceived : w'.2 = recordReceipts w.1 l w'.1 w.2) {x : MemberId × MemberId × ℕ} :
    x ∈ w'.2 ↔ x ∈ w.2 ∨ input.receipt m = some x := by
  rw [hreceived, recordReceipts, List.mem_append, receipts, htaken, Option.bind_some,
    Option.mem_toList]

omit [Protobuf] in
theorem recordReceipts_of_none (htaken : w.1.taken l = none)
    (hreceived : w'.2 = recordReceipts w.1 l w'.1 w.2) : w'.2 = w.2 := by
  rw [hreceived, recordReceipts, receipts, htaken]
  exact List.append_nil _

/-- The packet behind a receipt. -/
theorem Acts.receipt {s s' : Cluster} (h : Acts C s l m input n' events rest s')
    {x : MemberId × MemberId × ℕ} (hx : input.receipt m = some x) :
    ∃ sender body live, input = .receive sender body live ∧
      ⟨sender,m,body⟩ ∈ s.network ∧ ∃ request ∈ body.appendRequest,
        x = (m,sender,request.term) := by
  cases input with
  | receive sender body live =>
    obtain ⟨request,hrequest,hx⟩ := Option.map_eq_some_iff.mp hx
    exact ⟨sender,body,live,rfl,h.packet_mem rfl,request,hrequest,hx.symm⟩
  | electionTimeout => cases hx
  | heartbeatTimeout => cases hx
  | client _ _ _ _ => cases hx

namespace Heard

omit [Protobuf] in
theorem init (kv : MemberId → Storage) : Heard C (Cluster.init kv,[]) where
  past h := nomatch h
  led h := nomatch h
  flight _ hp := nomatch hp
  member _ _ h := nomatch h

theorem act (h : Heard C w) (he : Electoral C w.1) (htaken : w.1.taken l = some (m,io,input))
    (hhears : (w.1.node m).Hears n' input) (hacts : Acts C w.1 l m input n' events rest w'.1)
    (hreceived : w'.2 = recordReceipts w.1 l w'.1 w.2) : Heard C w' where
  past {i j term} hx := by
    obtain hx | hx := (mem_recordReceipts htaken hreceived).mp hx
    · exact (h.past hx).trans (hacts.term_le i)
    · obtain ⟨_,_,_,-,-,_,-,heq⟩ := hacts.receipt hx
      obtain rfl := (Prod.mk.inj heq).1
      rw [hacts.node_self]
      exact hhears.receipt_le hx
  led {i j term} hx := by
    obtain hx | hx := (mem_recordReceipts htaken hreceived).mp hx
    · exact (h.led hx).imp fun _ hlog => hacts.history_subset hlog
    · obtain ⟨sender,body,live,-,hp,request,hrequest,heq⟩ := hacts.receipt hx
      obtain ⟨-,rfl,rfl⟩ : _ ∧ j = sender ∧ term = request.term := by simpa using heq
      exact (h.flight _ hp request hrequest).imp fun _ hlog => hacts.history_subset hlog
  flight p hp request hrequest := by
    obtain hp | ⟨rfl,hsent⟩ := hacts.mem_network hp
    · exact (h.flight p hp request hrequest).imp fun _ hlog => hacts.history_subset hlog
    · -- the sender leads the term of its request
      obtain ⟨callback,hbody⟩ := Body.mem_appendRequest.mp hrequest
      rw [hbody] at hsent
      have hfirst := he.addressed.firstIndex p.sender
      obtain ⟨⟨hrole,-,hterm,-⟩,-⟩ := (hacts.origin hsent).continues hfirst
      rw [← hterm]
      exact (he.leader _ hrole).imp fun _ hlog => hacts.history_subset hlog
  member i j hj := by
    by_cases hi : i = m
    · subst hi
      rw [hacts.node_self] at hj
      cases hhears with
      | kept hleader _ _ => exact h.member i j (hleader ▸ hj)
      | alone _ hleader _ _ _ => exact h.member i j (hleader ▸ hj)
      | @told sender _ request _ hleader _ =>
        have hp := hacts.packet_mem rfl
        have hauthor : request.leaderId = sender := he.addressed.author _ hp
        obtain rfl := Option.some.inj (hleader.symm.trans hj)
        rw [hauthor]
        exact (he.addressed.members _ hp).1
    · rw [hacts.node_ne hi] at hj
      exact h.member i j hj

omit [Protobuf] in
theorem lose (h : Heard C w) (hloses : Loses w.1 w'.1) (hreceived : w'.2 = w.2) :
    Heard C w' where
  past hx := by
    rw [hloses.node]
    exact h.past (hreceived ▸ hx)
  led hx := by
    rw [hloses.history]
    exact h.led (hreceived ▸ hx)
  flight p hp := by
    rw [hloses.history]
    exact h.flight p (hloses.network.subset hp)
  member := by
    rw [hloses.node]
    exact h.member

end Heard

/-- A step of a recorded run loses a message or is taken by one member. -/
theorem recorded_cases (hnext : recording (Cluster.step C) recordReceipts w l = some w') :
    (w.1.taken l = none ∧ Loses w.1 w'.1 ∧ w'.2 = w.2) ∨ ∃ m io input n' events rest,
      w.1.taken l = some (m,io,input) ∧
        (w.1.node m).step (C.cfg m) io input = some (n',events) ∧
          Acts C w.1 l m input n' events rest w'.1 ∧
            w'.2 = recordReceipts w.1 l w'.1 w.2 := by
  obtain ⟨hstep,hreceived⟩ := recording_eq_some.mp hnext
  obtain ⟨hnone,hloses⟩ | ⟨m,io,input,n',events,rest,htaken,hn,hacts⟩ := step_taken hstep
  · exact Or.inl ⟨hnone,hloses,recordReceipts_of_none hnone hreceived⟩
  · exact Or.inr ⟨m,io,input,n',events,rest,htaken,hn,hacts,hreceived⟩

theorem Heard.next (h : Heard C w) (he : Electoral C w.1)
    (hnext : recording (Cluster.step C) recordReceipts w l = some w') : Heard C w' := by
  obtain ⟨-,hloses,hreceived⟩ | ⟨m,io,input,n',events,rest,htaken,hn,hacts,hreceived⟩ :=
    recorded_cases hnext
  · exact h.lose hloses hreceived
  · exact h.act he htaken (RaftNode.step_hears hn) hacts hreceived

/-- The known leader stays one of the current term. -/
theorem Known.next (h : Known w) (he : Electoral C w.1) (hok : onStep RaftNode.KeepsLeader w.1 l)
    (hnext : recording (Cluster.step C) recordReceipts w l = some w') : Known w' := by
  obtain ⟨-,hloses,hreceived⟩ | ⟨m,io,input,n',events,rest,htaken,hn,hacts,hreceived⟩ :=
    recorded_cases hnext
  · intro i j
    rw [hloses.node, hreceived]
    exact h i j
  · have hmem := @mem_recordReceipts w w' l m io input htaken hreceived
    intro i j hj
    by_cases hi : i = m
    · subst hi
      rw [hacts.node_self] at hj ⊢
      have hhears := RaftNode.step_hears hn
      cases hhears with
      | kept hleader hterm _ =>
        rw [hterm]
        exact hmem.mpr (Or.inl (h i j (hleader ▸ hj)))
      | alone hraises hleader _ _ _ =>
        have hnone : (w.1.node i).leaderId = none := hok _ htaken hraises
        rw [hleader, hnone] at hj
        cases hj
      | @told sender _ request _ hleader hterm =>
        have hauthor : request.leaderId = sender := he.addressed.author _ (hacts.packet_mem rfl)
        obtain rfl := Option.some.inj (hleader.symm.trans hj)
        rw [hterm, hauthor]
        exact hmem.mpr (Or.inr rfl)
    · rw [hacts.node_ne hi] at hj ⊢
      exact hmem.mpr (Or.inl (h i j hj))

theorem Known.redirectsToLeader (h : Known w) : RedirectsToLeader C w := by
  intro m hrole io method reqPayload sessionId requestId n' events answer hclient hanswer redirect
    hredirect
  rw [Option.mem_def, RaftNode.client_redirects hrole hclient hanswer,
    RaftNode.redirect_eq_some] at hredirect
  obtain ⟨leaderId,leader,hid,hleader,rfl⟩ := hredirect
  obtain ⟨hpeer,rfl⟩ := RaftConfig.mem_of_findPeer hleader
  exact ⟨leader,hpeer,rfl,h m leader.memberId hid⟩

omit [Protobuf] in
/-- Who was heard from in the current term leads it, and a leader does not redirect. -/
theorem Known.noMutualRedirects (h : Known w) (hw : Heard C w) (he : Electoral C w.1) :
    NoMutualRedirects C w.1 := by
  rintro p - q - hterm ⟨hp,hq⟩
  obtain ⟨log,hlog⟩ := hw.led (h _ _ hp.leaderId)
  exact hq.role ((he.elected hlog).2.2 hterm)

/-- Once a term is raised alone, the redirect names the leader of an earlier one. -/
theorem keepsLeader_of_redirects (hw : Heard C w)
    (hnext : recording (Cluster.step C) recordReceipts w l = some w')
    (hredirects : RedirectsToLeader C w') : onStep RaftNode.KeepsLeader w.1 l := by
  obtain ⟨hnone,-,-⟩ | ⟨m,io,input,n',events,rest,htaken,hn,hacts,hreceived⟩ :=
    recorded_cases hnext
  · intro x hx
    rw [hnone] at hx
    cases hx
  intro x hx hraises
  obtain rfl := Option.some.inj (htaken.symm.trans hx)
  obtain ⟨hleader,hlt,hrole⟩ := hraises.step hn
  cases hid : (w.1.node m).leaderId with
  | none => rfl
  | some leaderId =>
    exfalso
    have hmember : leaderId ∈ (C.cfg m).peers.map Peer.memberId := hw.member m leaderId hid
    obtain ⟨leader,hfind⟩ := RaftConfig.exists_findPeer hmember
    have hredirect : n'.redirect (C.cfg m) = some ⟨leader.host,leader.port⟩ :=
      RaftNode.redirect_eq_some.mpr ⟨leaderId,leader,hleader.trans hid,hfind,rfl⟩
    have hanswer := RaftNode.client_answers_put (C.cfg m) .ok 0 0 hrole ⟨[],[],∅⟩
    have hheard := hredirects m
    rw [hacts.node_self] at hheard
    obtain ⟨p,-,-,hp⟩ := hheard hrole _ _ _ _ _ _ _ _ hanswer List.mem_cons_self _ hredirect
    -- what was received in this step or before it is of an earlier term
    obtain hp | hp := (mem_recordReceipts htaken hreceived).mp hp
    · exact absurd (hw.past hp) hlt.not_ge
    · rw [hraises.receipt] at hp
      cases hp

end Steps

section Runs
variable [Protobuf] {C : ClusterConfig} {s : Cluster} {w : Cluster × Received}
  {kv : MemberId → Storage} {labels : List Label} {ok : Cluster × Received → Label → Prop}

theorem ReceivingRun.heard (h : ReceivingRun C ok kv labels w) : Heard C w :=
  Generic.Run.invariant (.init kv) (fun hrun hw _ hnext =>
    hw.next (Run.electoral (hrun.forget fun _ _ _ => trivial : Cluster.Run C anyStep kv _ _)) hnext)
    h

theorem ReceivingRun.known
    (h : ReceivingRun C (fun w => onStep RaftNode.KeepsLeader w.1) kv labels w) : Known w := by
  refine Generic.Run.invariant (fun m i hi => nomatch hi) ?_ h
  intro ls w l w' hrun hw hok hnext
  have hs : Cluster.Run C anyStep kv ls w.1 := hrun.forget fun _ _ _ => trivial
  exact hw.next (Run.electoral hs) hok hnext

/-- Along a run, redirects name a leader of the node's own term, and no two of one term each other,
exactly when no member that knows a leader raises its term without a new one. -/
theorem redirects_iff (h : Cluster.Run C anyStep kv labels s) :
    ∃ received, ReceivingRun C (fun _ _ => True) kv labels (s,received) ∧
      ((∀ ks w, ks <+: labels → ReceivingRun C (fun _ _ => True) kv ks w →
          RedirectsToLeader C w ∧ NoMutualRedirects C w.1) ↔
        ReceivingRun C (fun w => onStep RaftNode.KeepsLeader w.1) kv labels (s,received)) := by
  obtain ⟨received,hreceiving⟩ := h.record recordReceipts []
  refine ⟨received,hreceiving,Generic.Run.always_iff ?_ ?_ hreceiving⟩
  · have hstart : Known (Cluster.init kv,[]) := fun m i hi => nomatch hi
    have hs : Electoral C (Cluster.init kv) := .init kv
    exact ⟨hstart.redirectsToLeader,hstart.noMutualRedirects (.init kv) hs⟩
  · intro ls w l w' hrun _ hnext
    constructor
    · intro hok
      have hrun' := hrun.snoc hok hnext
      have hs : Cluster.Run C anyStep kv _ w'.1 := hrun'.forget fun _ _ _ => trivial
      have hknown := ReceivingRun.known hrun'
      exact ⟨hknown.redirectsToLeader,
        hknown.noMutualRedirects (ReceivingRun.heard hrun') (Run.electoral hs)⟩
    · exact fun hgood => keepsLeader_of_redirects (ReceivingRun.heard hrun) hnext hgood.1

end Runs

section Trio
attribute [local instance] Proto3.protobuf

/-- Member 2 hears from member 1, the leader of term 1, and redirects to it. -/
theorem redirects_trio : ∃ s, Cluster.Run trio anyStep (fun _ => Storage.empty)
    [.electionTimeout 1,delivery 0,delivery 1,.heartbeatTimeout 1,delivery 1] s ∧
    ∃ received, ReceivingRun trio (fun _ _ => True) (fun _ => Storage.empty)
      [.electionTimeout 1,delivery 0,delivery 1,.heartbeatTimeout 1,delivery 1] (s,received) ∧
      received = [(2,1,1)] ∧ (s.node 2).redirect (trio.cfg 2) = some ⟨[],8080⟩ ∧
      RedirectsToLeader trio (s,received) ∧ NoMutualRedirects trio s := by
  obtain ⟨⟨s,seen⟩,hw,hseen,hredirect⟩ : ∃ w, ReceivingRun trio
      (fun w => onStep RaftNode.KeepsLeader w.1) (fun _ => Storage.empty)
      [.electionTimeout 1,delivery 0,delivery 1,.heartbeatTimeout 1,delivery 1] w ∧
      w.2 = [(2,1,1)] ∧ (w.1.node 2).redirect (trio.cfg 2) = some ⟨[],8080⟩ :=
    Generic.Run.of_check (by decide) (by decide)
  have hs : Cluster.Run trio anyStep _ _ s := hw.forget fun _ _ _ => trivial
  obtain ⟨received,hreceiving,hiff⟩ := redirects_iff hs
  obtain rfl : seen = received := congrArg Prod.snd (hw.det hreceiving)
  obtain ⟨hleader,hmutual⟩ := hiff.mpr hw _ _ (List.prefix_refl _) hreceiving
  exact ⟨s,hs,seen,hreceiving,hseen,hredirect,hleader,hmutual⟩

/-- Member 2 hears from member 1 in term 1, and member 1 from member 2 in term 2. Both step down for
the election of member 3 in term 3, and each names the other one. -/
theorem redirects_in_circle : ∃ s, Cluster.Run trio anyStep (fun _ => Storage.empty)
    [.electionTimeout 1,delivery 0,delivery 1,.heartbeatTimeout 1,delivery 1,.electionTimeout 2,
      delivery 4,delivery 4,.heartbeatTimeout 2,delivery 4,.electionTimeout 3,delivery 6,
      delivery 6] s ∧
    ∃ received, ReceivingRun trio (fun _ _ => True) (fun _ => Storage.empty)
      [.electionTimeout 1,delivery 0,delivery 1,.heartbeatTimeout 1,delivery 1,.electionTimeout 2,
        delivery 4,delivery 4,.heartbeatTimeout 2,delivery 4,.electionTimeout 3,delivery 6,
        delivery 6] (s,received) ∧
      ¬RedirectsToLeader trio (s,received) ∧ ¬NoMutualRedirects trio s := by
  obtain ⟨⟨s,received⟩,hw,hseen,⟨hrole,hid,hredirect,hterm⟩,hrole',hid',hredirect',hterm'⟩ :
      ∃ w, ReceivingRun trio (fun _ _ => True) (fun _ => Storage.empty)
      [.electionTimeout 1,delivery 0,delivery 1,.heartbeatTimeout 1,delivery 1,.electionTimeout 2,
        delivery 4,delivery 4,.heartbeatTimeout 2,delivery 4,.electionTimeout 3,delivery 6,
        delivery 6] w ∧ w.2 = [(2,1,1),(1,2,2)] ∧
      ((w.1.node 1).role ≠ .leader ∧ (w.1.node 1).leaderId = some 2 ∧
        (w.1.node 1).redirect (trio.cfg 1) = some ⟨[],8081⟩ ∧ (w.1.node 1).currentTerm = 3) ∧
      (w.1.node 2).role ≠ .leader ∧ (w.1.node 2).leaderId = some 1 ∧
        (w.1.node 2).redirect (trio.cfg 2) = some ⟨[],8080⟩ ∧ (w.1.node 2).currentTerm = 3 :=
    Generic.Run.of_check (Generic.accepted_of_forall (fun _ _ => trivial) _ _) (by decide)
  refine ⟨s,hw.forget fun _ _ _ => trivial,received,hw,fun h => ?_,fun h => ?_⟩
  · have hanswer := RaftNode.client_answers_put (trio.cfg 1) .ok 0 0 hrole ⟨[],[],∅⟩
    obtain ⟨p,-,-,hp⟩ := h 1 hrole _ _ _ _ _ _ _ _ hanswer List.mem_cons_self _ hredirect
    simp only at hseen hterm
    rw [hseen, hterm] at hp
    simp at hp
  · refine h ⟨1,[],8080⟩ (by decide) ⟨2,[],8081⟩ (by decide) (hterm.trans hterm'.symm) ⟨?_,?_⟩
    · exact ⟨hrole,hid,hredirect⟩
    · exact ⟨hrole',hid',hredirect'⟩

end Trio
end Cluster
end Foskv.Raft
