import Foskv.Raft.Elections

/-! The term and the role of a node in one step, and what an outdated message does. -/
namespace Foskv.Raft
namespace RaftNode

/-- A reply in the node's own term that refuses what was asked. -/
def Refuses (n : RaftNode) : Body → Prop
  | .requestVoteReply response =>
    response.header.term = n.currentTerm ∧ response.voteGranted = false
  | .appendEntriesReply _ response =>
    response.header.term = n.currentTerm ∧ response.success = false
  | _ => False

/-- How a step may move the term and the role. A message of a smaller term changes no field of
the node, and all the node does is to refuse it. -/
structure MovesTerm (n : RaftNode) (input : Input) (n' : RaftNode) (events : List Event) :
    Prop where
  term_le : n.currentTerm ≤ n'.currentTerm
  same : n'.currentTerm = n.currentTerm →
    n'.role = n.role ∨ n.role = .candidate ∧ n'.role = .leader
  larger : n.currentTerm < n'.currentTerm →
    n'.role = .follower ∨ n'.role = .candidate ∧ n'.currentTerm = n.currentTerm + 1
  stale : ∀ sender body live, input = .receive sender body live →
    body.term < n.currentTerm →
      n' = n ∧ ∀ e ∈ events, ∃ reply, e = .sent sender reply ∧ n.Refuses reply

section Steps
variable [Protobuf] {cfg : RaftConfig} {n n' : RaftNode} {io : DiskOutcome} {input : Input}
  {events : List Event}

omit [Protobuf] in
theorem Standing.role_of_same (h : Standing cfg n input n' events)
    (hterm : n'.currentTerm = n.currentTerm) :
    n'.role = n.role ∨ n.role = .candidate ∧ n'.role = .leader := by
  cases h with
  | kept same => exact Or.inl same.role
  | raised hlt term _ _ _ => omega
  | started _ _ => exact absurd hterm (Nat.succ_ne_self _)
  | counted _ _ _ => exact Or.inl rfl
  | elected _ hrole _ _ _ => exact Or.inr ⟨hrole,rfl⟩

omit [Protobuf] in
theorem Standing.role_of_larger (h : Standing cfg n input n' events)
    (hterm : n.currentTerm < n'.currentTerm) :
    n'.role = .follower ∨ n'.role = .candidate ∧ n'.currentTerm = n.currentTerm + 1 := by
  cases h with
  | kept same => exact absurd same.term hterm.ne'
  | raised _ _ role _ _ => exact Or.inl role
  | started _ _ => exact Or.inr ⟨rfl,rfl⟩
  | counted _ _ _ => exact absurd hterm (lt_irrefl _)
  | elected _ _ _ _ _ => exact absurd hterm (lt_irrefl _)

/-- A message of a smaller term is dropped or refused, and always handled. -/
theorem receive_stale {sender : MemberId} {body : Body} (live : List ℕ)
    (hterm : body.term < n.currentTerm) :
    ∃ events, n.receive cfg io sender live body = some (n,events) ∧
      ∀ e ∈ events, ∃ reply, e = .sent sender reply ∧ n.Refuses reply := by
  cases body with
  | requestVote request =>
    have hvote : n.handleRequestVoteRequest cfg io request =
        (n,n.produceRequestVoteResponse cfg false) := if_pos hterm
    refine ⟨_,by rw [receive, hvote],fun e he => ?_⟩
    obtain rfl := List.mem_singleton.mp he
    exact ⟨_,rfl,rfl,rfl⟩
  | appendEntries callback request =>
    have happend : n.handleAppendEntriesRequest cfg io request = some (n,[],
        n.produceAppendEntriesResponse cfg false (n.logs.lastLogIndex + 1)) := if_pos hterm
    refine ⟨_,by rw [receive, happend]; rfl,fun e he => ?_⟩
    obtain rfl := List.mem_singleton.mp he
    exact ⟨_,rfl,rfl,rfl⟩
  | requestVoteReply response =>
    have hdrop : n.handleRequestVoteResponse cfg io response = (n,[]) := if_pos hterm
    exact ⟨[],by rw [receive, hdrop],by simp⟩
  | appendEntriesReply callback response =>
    cases callback with
    | heartbeat =>
      have hdrop : n.handleHeartbeatResponse io response = (n,[]) := if_pos (Or.inl hterm)
      exact ⟨[],by rw [receive, hdrop],by simp⟩
    | appendEntries =>
      have hdrop : n.handleAppendEntriesResponse io live response = (n,[]) :=
        if_pos (Or.inl hterm)
      exact ⟨[],by rw [receive, hdrop],by simp⟩

/-- Terms never fall, a role changes within a term only from candidate to leader and with the
term only to follower or to candidate of the next term, and outdated messages are refused. -/
theorem terms_and_roles (h : n.step cfg io input = some (n',events)) :
    n.MovesTerm input n' events where
  term_le := (step_transition h).term_le
  same := (step_transition h).standing.role_of_same
  larger := (step_transition h).standing.role_of_larger
  stale sender body live hi hterm := by
    subst hi
    obtain ⟨events',hevents,hrefused⟩ := @receive_stale _ cfg n io sender body live hterm
    have heq := Option.some.inj (h.symm.trans hevents)
    obtain ⟨rfl,rfl⟩ := Prod.mk.inj heq
    exact ⟨rfl,hrefused⟩

end Steps

section Fresh
attribute [local instance] Proto3.protobuf

/-- The first election timeout of a new member, and then a vote request of term 0. -/
theorem terms_and_roles_fresh : ∃ n n' events events',
    (RaftNode.fresh Storage.empty).step (Cluster.trio.cfg 1) .ok .electionTimeout =
      some (n,events) ∧ (n.role = .candidate ∧ n.currentTerm = 1) ∧
    (RaftNode.fresh Storage.empty).MovesTerm .electionTimeout n events ∧
    n.step (Cluster.trio.cfg 1) .ok (.receive 2 (.requestVote ⟨0,2,5,0⟩) []) =
      some (n',events') ∧ n.MovesTerm (.receive 2 (.requestVote ⟨0,2,5,0⟩) []) n' events' :=
  ⟨_,_,_,_,rfl,⟨rfl,rfl⟩,@terms_and_roles _ (Cluster.trio.cfg 1) _ _ .ok _ _ rfl,rfl,
    @terms_and_roles _ (Cluster.trio.cfg 1) _ _ .ok _ _ rfl⟩

end Fresh
end RaftNode
end Foskv.Raft
