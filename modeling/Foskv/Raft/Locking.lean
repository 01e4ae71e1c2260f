import Foskv.Generic.DoubleChecked
import Foskv.Raft.Elections
import Foskv.Raft.NodeSteps
import Foskv.Rpc.Proto3

/-! The checks that timers and callbacks make before they lock the node's mutex: however the
handlers of a node interleave, each is one step of the node. Each access to `current_term_` or
`role_` is one step here. -/
namespace Foskv.Raft
open Generic

/-- The members of a node that are read without its mutex. -/
inductive AtomicMember
  | currentTerm
  | role
  deriving DecidableEq, Repr

@[reducible] def AtomicMember.Value : AtomicMember → Type
  | .currentTerm => ℕ
  | .role => Role

abbrev AtomicStore := Sigma AtomicMember.Value

namespace RaftNode

/-- `increase_term_to` and the store to `role_` behind it. -/
def termStores (n : RaftNode) (term : ℕ) : List AtomicStore :=
  if n.currentTerm < term then [⟨.currentTerm,term⟩,⟨.role,.follower⟩] else []

/-- What a handler stores in the atomic members while it holds the mutex, in the program's
order. -/
def stores (cfg : RaftConfig) (n : RaftNode) : Input → List AtomicStore
  | .electionTimeout =>
    if n.role = .leader then []
    else [⟨.role,.candidate⟩,⟨.currentTerm,n.currentTerm + 1⟩]
  | .heartbeatTimeout => []
  | .receive _ (.requestVote request) _ => n.termStores request.term
  | .receive _ (.appendEntries _ request) _ => n.termStores request.term
  | .receive _ (.requestVoteReply response) _ =>
    if response.header.term < n.currentTerm then []
    else if n.currentTerm < response.header.term then n.termStores response.header.term
    else if n.role = .leader then []
    else if response.voteGranted ∧ cfg.peerCount/2 < n.votes + 1 ∧ n.role = .candidate then
      [⟨.role,.leader⟩]
    else []
  | .receive _ (.appendEntriesReply _ response) _ =>
    if n.role = .leader then n.termStores response.header.term else []
  | .client .. => []

/-- What a coroutine reads before it locks the mutex, and when it goes no further. Request
handlers lock it first. -/
def checks : Input → List ((v : AtomicMember) × (v.Value → Bool))
  | .electionTimeout => [⟨.role,fun role => role = .leader⟩]
  | .heartbeatTimeout => [⟨.role,fun role => role ≠ .leader⟩]
  | .receive _ (.requestVoteReply response) _ =>
    [⟨.currentTerm,fun term => response.header.term < term⟩]
  | .receive _ (.appendEntriesReply _ response) _ =>
    [⟨.currentTerm,fun term => response.header.term < term⟩,⟨.role,fun role => role ≠ .leader⟩]
  | .receive _ (.requestVote _) _ | .receive _ (.appendEntries ..) _ | .client .. => []

def atomicMember (n : RaftNode) : (v : AtomicMember) → v.Value
  | .currentTerm => n.currentTerm
  | .role => n.role

/-- The node behind its mutex, with the events of its steps so far. -/
def locking [Protobuf] (cfg : RaftConfig) :
    Guarded (RaftNode × List Event) (DiskOutcome × Input) AtomicMember AtomicMember.Value where
  step s i := (s.1.step cfg i.1 i.2).map fun r => (r.1,s.2 ++ r.2)
  var v s := s.1.atomicMember v
  load shown s := ({ s.1 with currentTerm := shown .currentTerm, role := shown .role },s.2)
  stores s i := s.1.stores cfg i.2
  checks i := checks i.2

/-- The stores move the term and the role from one node to the other. -/
structure Stores (n : RaftNode) (stores : List AtomicStore) (n' : RaftNode) : Prop where
  term : n'.currentTerm = stored (β := AtomicMember.Value) stores .currentTerm n.currentTerm
  role : n'.role = stored (β := AtomicMember.Value) stores .role n.role

section Steps
variable {cfg : RaftConfig} {n n' n₁ : RaftNode} {io : DiskOutcome} {input : Input}
  {events : List Event} {term : ℕ}

theorem Stores.nil (hterm : n'.currentTerm = n.currentTerm) (hrole : n'.role = n.role) :
    n.Stores [] n' := ⟨hterm,hrole⟩

theorem stores_lowered (h : n.currentTerm < term) (hterm : n'.currentTerm = term)
    (hrole : n'.role = .follower) : n.Stores (n.termStores term) n' := by
  rw [termStores, if_pos h]
  exact ⟨hterm,hrole⟩

theorem termStores_of_le (h : term ≤ n.currentTerm) : n.termStores term = [] :=
  if_neg (Nat.not_lt.mpr h)

theorem Observed.stores (h : n.Observed term n₁) (same : n₁.SameStanding n') :
    n.Stores (n.termStores term) n' := by
  obtain ⟨rfl,rfl⟩ | ⟨hlt,p,rfl⟩ := h
  · rw [termStores_of_le le_rfl]
    exact .nil same.term same.role
  · exact stores_lowered hlt same.term same.role

variable [Protobuf]

theorem handleAppendEntriesRequest_stores {request : AppendEntriesRequest}
    {response : AppendEntriesResponse}
    (h : n.handleAppendEntriesRequest cfg io request = some (n',events,response)) :
    n.Stores (n.termStores request.term) n' := by
  have htransition := @handleAppendEntriesRequest_transition _ cfg n n' io events cfg.memberId []
    .appendEntries request response h
  generalize hall : events ++ [.sent cfg.memberId (.appendEntriesReply .appendEntries response)] =
    all at htransition
  cases htransition with
  | idle hevents =>
    obtain rfl | ⟨_,_,_,rfl⟩ := hevents
    · simp at hall
    · have hlast := congrArg List.getLast? hall
      simp at hlast
  | appendStale hterm =>
    rw [termStores_of_le hterm.le]
    exact .nil rfl rfl
  | heartbeatReceived hobs _ hview =>
    obtain ⟨sm,la,rfl⟩ := hview.eq
    obtain ⟨c,hc⟩ := raiseCommit_eq _ _
    rw [hc]
    exact hobs.stores ⟨rfl,rfl,rfl,rfl⟩
  | appendBeyond hobs _ _ => exact hobs.stores ⟨rfl,rfl,rfl,rfl⟩
  | appendFailed hobs _ _ hres =>
    obtain ⟨old,p,rfl,-⟩ := hres.eq
    exact hobs.stores ⟨rfl,rfl,rfl,rfl⟩
  | appended hobs _ _ hres hset =>
    obtain ⟨sm,la,c,rfl⟩ := hset.eq
    obtain ⟨old,p,rfl,-⟩ := hres.eq
    exact hobs.stores ⟨rfl,rfl,rfl,rfl⟩
  | lowered _ hreply =>
    obtain ⟨_,hr⟩ | ⟨_,_,hr⟩ := hreply
    · cases hr
    · cases hr

theorem handleRequestVoteResponse_stores (sender : MemberId) (live : List ℕ)
    (response : RequestVoteResponse) :
    n.Stores (n.stores cfg (.receive sender (.requestVoteReply response) live))
      (n.handleRequestVoteResponse cfg io response).1 := by
  unfold handleRequestVoteResponse RaftNode.stores
  by_cases hs : response.header.term < n.currentTerm
  · simp only [if_pos hs]
    exact .nil rfl rfl
  simp only [if_neg hs]
  by_cases hh : n.currentTerm < response.header.term
  · simp only [if_pos hh]
    obtain ⟨p,hp⟩ := stepDown_eq n io response.header.term n.currentTerm
    rw [hp]
    exact stores_lowered hh rfl rfl
  simp only [if_neg hh]
  by_cases hl : n.role = .leader
  · simp only [if_pos hl]
    exact .nil rfl rfl
  simp only [if_neg hl]
  by_cases hg : response.voteGranted
  · simp only [hg, if_true, true_and]
    split_ifs with hm
    · obtain ⟨p,hp⟩ := becomeLeader_eq { n with votes := n.votes + 1 } io
      rw [hp]
      exact ⟨rfl,rfl⟩
    · exact .nil rfl rfl
  · rw [if_neg hg, if_neg fun h => hg h.1]
    exact .nil rfl rfl

omit [Protobuf] in
theorem Stores.of_pair {stores : List AtomicStore} {r : RaftNode × List Event}
    (hr : n.Stores stores r.1) (h : some r = some (n',events)) : n.Stores stores n' := by
  obtain rfl := Option.some.inj h
  exact hr

omit [Protobuf] in
theorem appendReply_stored {sender : MemberId} {callback : Callback} {live : List ℕ}
    {response : AppendEntriesResponse}
    (hstale : response.header.term < n.currentTerm ∨ n.role ≠ .leader → n' = n)
    (hraised : n.role = .leader → n.currentTerm < response.header.term →
      n'.currentTerm = response.header.term ∧ n'.role = .follower)
    (hkept : response.header.term = n.currentTerm → n.SameStanding n') :
    n.Stores (n.stores cfg (.receive sender (.appendEntriesReply callback response) live)) n' := by
  rw [RaftNode.stores]
  by_cases hrole : n.role = .leader
  · rw [if_pos hrole]
    obtain hlt | heq | hgt := Nat.lt_trichotomy response.header.term n.currentTerm
    · obtain rfl := hstale (Or.inl hlt)
      rw [termStores_of_le hlt.le]
      exact .nil rfl rfl
    · rw [termStores_of_le heq.le]
      exact .nil (hkept heq).term (hkept heq).role
    · obtain ⟨hterm,hfollower⟩ := hraised hrole hgt
      exact stores_lowered hgt hterm hfollower
  · rw [if_neg hrole]
    obtain rfl := hstale (Or.inr hrole)
    exact .nil rfl rfl

/-- A handler of responses to AppendEntries requests steps down, or stores nothing. -/
theorem appendReply_stores (sender : MemberId) (callback : Callback) (live : List ℕ)
    (response : AppendEntriesResponse)
    (h : n.receive cfg io sender live (.appendEntriesReply callback response) =
      some (n',events)) :
    n.Stores (n.stores cfg (.receive sender (.appendEntriesReply callback response) live)) n' := by
  have htransition : n.Transition cfg
      (.receive sender (.appendEntriesReply callback response) live) n' events := step_transition h
  have hkept : response.header.term = n.currentTerm → n.SameStanding n' := by
    intro heq
    cases htransition.standing with
    | kept same => exact same
    | raised hlt _ _ _ _ => exact absurd heq hlt.ne'
  cases callback with
  | heartbeat =>
    obtain rfl : (n.handleHeartbeatResponse io response).1 = n' :=
      congrArg Prod.fst (Option.some.inj h)
    refine appendReply_stored (fun hs => ?_) (fun hrole hlt => ?_) hkept
    · rw [handleHeartbeatResponse, if_pos hs]
    · obtain ⟨p,hp⟩ := stepDown_eq n io response.header.term response.header.term
      rw [handleHeartbeatResponse, if_neg (by simp [hrole, hlt.le]), if_pos hlt, hp]
      exact ⟨rfl,rfl⟩
  | appendEntries =>
    obtain rfl : (n.handleAppendEntriesResponse io live response).1 = n' :=
      congrArg Prod.fst (Option.some.inj h)
    refine appendReply_stored (fun hs => ?_) (fun hrole hlt => ?_) hkept
    · rw [handleAppendEntriesResponse, if_pos hs]
    · obtain ⟨p,hp⟩ := stepDown_eq n io response.header.term response.header.term
      rw [handleAppendEntriesResponse, if_neg (by simp [hrole, hlt.le]), if_pos hlt, hp]
      exact ⟨rfl,rfl⟩

/-- The stores of a handler are all it does to the two atomic members. -/
theorem step_stores (h : n.step cfg io input = some (n',events)) :
    n.Stores (n.stores cfg input) n' := by
  cases input with
  | electionTimeout =>
    refine .of_pair ?_ h
    unfold startElectionTimeout RaftNode.stores
    split_ifs
    · exact .nil rfl rfl
    · exact ⟨rfl,rfl⟩
  | heartbeatTimeout =>
    refine .of_pair ?_ h
    unfold startHeartbeatTimeout
    split_ifs
    · exact .nil rfl rfl
    · exact .nil rfl rfl
  | receive sender body live =>
    cases body with
    | requestVote request =>
      refine .of_pair ?_ h
      unfold handleRequestVoteRequest
      change n.Stores (n.termStores request.term) _
      split_ifs with hs
      · rw [termStores_of_le hs.le]
        exact .nil rfl rfl
      · exact (observeTerm_observed n io (Nat.le_of_not_lt hs)).stores (.refl _)
    | appendEntries callback request =>
      obtain ⟨⟨n₁,es,response⟩,hr,h⟩ := Option.bind_eq_some_iff.mp h
      cases h
      exact handleAppendEntriesRequest_stores hr
    | requestVoteReply response =>
      exact .of_pair (handleRequestVoteResponse_stores sender live response) h
    | appendEntriesReply callback response =>
      exact appendReply_stores sender callback live response h
  | client method reqPayload sessionId requestId =>
    cases (client_transition h).standing with
    | kept same => exact .nil same.term same.role

/-- A coroutine that goes no further would have done nothing with the mutex either. -/
theorem step_idle {check : (v : AtomicMember) × (v.Value → Bool)} (hcheck : check ∈ checks input)
    (hleave : check.2 (n.atomicMember check.1) = true) :
    n.step cfg io input = some (n,[]) := by
  cases input with
  | electionTimeout =>
    obtain rfl := List.mem_singleton.mp hcheck
    have hrole : n.role = .leader := of_decide_eq_true hleave
    rw [step, startElectionTimeout, if_pos hrole]
  | heartbeatTimeout =>
    obtain rfl := List.mem_singleton.mp hcheck
    have hrole : n.role ≠ .leader := of_decide_eq_true hleave
    rw [step, startHeartbeatTimeout, if_pos hrole]
  | receive sender body live =>
    cases body with
    | requestVote request => cases hcheck
    | appendEntries callback request => cases hcheck
    | requestVoteReply response =>
      obtain rfl := List.mem_singleton.mp hcheck
      have hterm : response.header.term < n.currentTerm := of_decide_eq_true hleave
      rw [step, receive, handleRequestVoteResponse, if_pos hterm]
    | appendEntriesReply callback response =>
      have hgone : response.header.term < n.currentTerm ∨ n.role ≠ .leader := by
        obtain rfl | hcheck := List.mem_cons.mp hcheck
        · exact Or.inl (of_decide_eq_true hleave)
        · obtain rfl := List.mem_singleton.mp hcheck
          exact Or.inr (of_decide_eq_true hleave)
      cases callback with
      | heartbeat => rw [step, receive, handleHeartbeatResponse, if_pos hgone]
      | appendEntries => rw [step, receive, handleAppendEntriesResponse, if_pos hgone]
  | client method reqPayload sessionId requestId => cases hcheck

omit [Protobuf] in
theorem stores_distinct (cfg : RaftConfig) (n : RaftNode) (input : Input) :
    ((n.stores cfg input).map Sigma.fst).Nodup := by
  have hterm : ∀ term, ((n.termStores term).map Sigma.fst).Nodup := by
    intro term
    unfold termStores
    split_ifs
    · exact List.nodup_cons.mpr ⟨by simp,List.nodup_singleton _⟩
    · exact List.nodup_nil
  unfold RaftNode.stores
  split <;> try split_ifs
  all_goals first | exact hterm _ | simp

theorem locking_sound (cfg : RaftConfig) : (locking cfg).Sound where
  load_var s := rfl
  distinct s i := stores_distinct cfg s.1 i.2
  stored h v := by
    obtain ⟨⟨n',events⟩,hn,rfl⟩ := Option.map_eq_some_iff.mp h
    have hstores := step_stores hn
    cases v with
    | currentTerm => exact hstores.term
    | role => exact hstores.role
  idle hcheck hleave := by
    change Option.map _ _ = _
    rw [step_idle hcheck hleave]
    simp

/-- However the coroutines of a node interleave, the ones that have locked the mutex and the ones
that have gone no further are steps of the node in one order, in which those that went no further
do nothing. -/
theorem handlers_atomic {ok : Calls (RaftNode × List Event) (DiskOutcome × Input)
      AtomicMember.Value → CallLabel (DiskOutcome × Input) → Prop}
    {labels : List (CallLabel (DiskOutcome × Input))}
    {f : Calls (RaftNode × List Event) (DiskOutcome × Input) AtomicMember.Value}
    (h : Generic.Run (locking cfg).next ok ((locking cfg).start (n,[])) labels f) :
    ∃ order, (locking cfg).Atomic (n,[]) f order :=
  (locking_sound cfg).atomic h

end Steps

section Trio
attribute [local instance] Proto3.protobuf

/-- Member 1 of three stands for election and wins. A callback reads the old term and then waits
for the mutex, another one reads the new term while the election still holds it, and a second
election timer sees the leader before the winning callback has returned. -/
def wonElection : List (CallLabel (DiskOutcome × Input)) :=
  [.call (.ok,.electionTimeout),.check 0,.lock 0,
    .call (.ok,.receive 2 (.requestVoteReply ⟨⟨0,2,0⟩,true⟩) []),.check 1,.store 0,.store 0,
    .call (.ok,.receive 3 (.requestVoteReply ⟨⟨0,3,0⟩,true⟩) []),.check 2,.unlock,.lock 1,.unlock,
    .call (.ok,.receive 2 (.requestVoteReply ⟨⟨0,2,1⟩,true⟩) []),.check 3,.lock 3,.store 0,
    .call (.ok,.electionTimeout),.check 4,.unlock]

theorem handlers_atomic_trio : ∃ f,
    Generic.Run (locking (Cluster.trio.cfg 1)).next (fun _ _ => True)
      ((locking (Cluster.trio.cfg 1)).start (.fresh Storage.empty,[])) wonElection f ∧
    (f.state.1.role = .leader ∧ f.state.1.currentTerm = 1 ∧
      [f.place 0,f.place 1,f.place 2,f.place 3,f.place 4] = [.done,.done,.left,.done,.left]) ∧
    ∃ order, (locking (Cluster.trio.cfg 1)).Atomic (.fresh Storage.empty,[]) f order := by
  obtain ⟨f,hf,hfacts⟩ : ∃ f, Generic.Run (locking (Cluster.trio.cfg 1)).next (fun _ _ => True)
      ((locking (Cluster.trio.cfg 1)).start (.fresh Storage.empty,[])) wonElection f ∧
      (f.state.1.role = .leader ∧ f.state.1.currentTerm = 1 ∧
        [f.place 0,f.place 1,f.place 2,f.place 3,f.place 4] =
          [.done,.done,.left,.done,.left]) :=
    Generic.Run.of_check (Generic.accepted_of_forall (fun _ _ => trivial) _ _) (by decide)
  exact ⟨f,hf,hfacts,handlers_atomic hf⟩

end Trio
end RaftNode
end Foskv.Raft
