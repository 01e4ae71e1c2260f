import Foskv.Raft.Elections
import Mathlib.Data.Prod.Lex

/-! The comparison of logs in a vote against the order of pairs of last term and last index. -/
namespace Foskv.Raft

/-- A request and a log by their last term and last index. -/
def RequestVoteRequest.lastPair (request : RequestVoteRequest) : ℕ ×ₗ ℕ :=
  toLex (request.lastLogTerm,request.lastLogIndex)

def RaftLog.lastPair (l : RaftLog) : ℕ ×ₗ ℕ := toLex (l.lastLogTerm,l.lastLogIndex)

namespace RaftNode

/-- The program compares indexes first, so it agrees with the pairs only where a longer log is
also no older, and a log that is not longer is no newer. -/
theorem upToDateLog_iff_lastPair (l : RaftLog) (request : RequestVoteRequest) :
    (upToDateLog l request = true ↔ l.lastPair ≤ request.lastPair) ↔
      (l.lastLogIndex < request.lastLogIndex → l.lastLogTerm ≤ request.lastLogTerm) ∧
        (request.lastLogIndex ≤ l.lastLogIndex → request.lastLogTerm ≤ l.lastLogTerm) := by
  simp only [upToDateLog, Bool.decide_or, Bool.or_eq_true, decide_eq_true_eq, RaftLog.lastPair,
    RequestVoteRequest.lastPair, Prod.Lex.toLex_le_toLex]
  obtain hlt | heq | hgt := Nat.lt_trichotomy l.lastLogIndex request.lastLogIndex
  · simp only [hlt, true_or, true_iff, forall_const, Nat.not_le.mpr hlt, false_imp_iff, and_true]
    omega
  · omega
  · omega

/-- The request shows the last entry of this log, as the one a candidate sends does. -/
def Presents (request : RequestVoteRequest) (l : RaftLog) : Prop :=
  request.lastLogIndex = l.lastLogIndex ∧ request.lastLogTerm = l.lastLogTerm

instance (request : RequestVoteRequest) (l : RaftLog) : Decidable (Presents request l) :=
  inferInstanceAs (Decidable (_ ∧ _))

theorem produceRequestVoteRequest_presents (cfg : RaftConfig) (n : RaftNode) :
    Presents (n.produceRequestVoteRequest cfg) n.logs := ⟨rfl,rfl⟩

/-- Of two nodes, one is up to date for the other unless their logs are equally long and end in
different terms. -/
theorem upToDateLog_total {l l' : RaftLog} {request request' : RequestVoteRequest}
    (h : Presents request l') (h' : Presents request' l) :
    (upToDateLog l request = true ∨ upToDateLog l' request' = true) ↔
      (l.lastLogIndex = l'.lastLogIndex → l.lastLogTerm = l'.lastLogTerm) := by
  simp only [upToDateLog, h.1, h.2, h'.1, h'.2, Bool.decide_or, Bool.or_eq_true,
    decide_eq_true_eq]
  omega

section Votes
variable [Protobuf] {cfg : RaftConfig} {n : RaftNode} {io : DiskOutcome}
  {request : RequestVoteRequest}

/-- The request is of a term not below the node's and the node is free to vote for its
candidate. -/
def FreeFor (n : RaftNode) (io : DiskOutcome) (request : RequestVoteRequest) : Prop :=
  n.currentTerm ≤ request.term ∧
    (n.observeTerm io request.term).canVote request.candidateId = true

instance : Decidable (n.FreeFor io request) := inferInstanceAs (Decidable (_ ∧ _))

/-- Whether the node votes for the candidate. -/
def grants (cfg : RaftConfig) (n : RaftNode) (io : DiskOutcome) (request : RequestVoteRequest) :
    Bool :=
  (n.handleRequestVoteRequest cfg io request).2.voteGranted

/-- A node that is free to vote decides by the comparison of logs alone. -/
theorem FreeFor.grants_eq (h : n.FreeFor io request) :
    n.grants cfg io request = upToDateLog n.logs request := by
  obtain ⟨hterm,hfree⟩ := h
  have hlogs : upToDateLog (n.observeTerm io request.term).logs request =
      upToDateLog n.logs request := by
    obtain ⟨r,v,vf,p,heq⟩ := (observeTerm_observed n io hterm).eq
    rw [heq]
    rfl
  rw [grants, handleRequestVoteRequest, if_neg (Nat.not_lt.mpr hterm)]
  change ((n.observeTerm io request.term).canVote request.candidateId &&
    upToDateLog (n.observeTerm io request.term).logs request) = _
  rw [hfree, hlogs, Bool.true_and]

/-- A vote follows the order of last term and last index exactly when the two orders agree on
the two logs; one of two nodes gets the other's vote exactly when equally long logs end in the
same term; a candidate with an older last term is refused exactly when its log is no longer. -/
theorem grants_iff_lastPair (cfg : RaftConfig) (n : RaftNode) (io : DiskOutcome)
    (request : RequestVoteRequest) (hfree : n.FreeFor io request) :
    ((n.grants cfg io request = true ↔ n.logs.lastPair ≤ request.lastPair) ↔
      (n.logs.lastLogIndex < request.lastLogIndex →
        n.logs.lastLogTerm ≤ request.lastLogTerm) ∧
      (request.lastLogIndex ≤ n.logs.lastLogIndex →
        request.lastLogTerm ≤ n.logs.lastLogTerm)) ∧
    (∀ (cfg' : RaftConfig) (n' : RaftNode) (io' : DiskOutcome) (request' : RequestVoteRequest),
      n'.FreeFor io' request' → Presents request n'.logs → Presents request' n.logs →
      ((n.grants cfg io request = true ∨ n'.grants cfg' io' request' = true) ↔
        (n.logs.lastLogIndex = n'.logs.lastLogIndex →
          n.logs.lastLogTerm = n'.logs.lastLogTerm))) ∧
    ((request.lastLogTerm < n.logs.lastLogTerm → n.grants cfg io request = false) ↔
      (request.lastLogTerm < n.logs.lastLogTerm →
        request.lastLogIndex ≤ n.logs.lastLogIndex)) := by
  refine ⟨?_,?_,?_⟩
  · rw [hfree.grants_eq]
    exact upToDateLog_iff_lastPair n.logs request
  · intro cfg' n' io' request' hfree' hpresents hpresents'
    rw [hfree.grants_eq, hfree'.grants_eq]
    exact upToDateLog_total hpresents hpresents'
  · rw [hfree.grants_eq]
    refine imp_congr_right fun hold => ?_
    simp only [upToDateLog, hold.ne, and_false, or_false, decide_eq_false_iff_not, Nat.not_lt]

end Votes

section Examples
attribute [local instance] Proto3.protobuf

/-- A follower with these entries. -/
private def holding (currentTerm : ℕ) (entries : List LogEntry) : RaftNode :=
  { RaftNode.fresh Storage.empty with
    currentTerm := currentTerm
    logs := ⟨1,entries,⟨Storage.empty⟩⟩ }

private def cfgOf (memberId : MemberId) : RaftConfig := ⟨1,memberId,[]⟩

/-- Two nodes whose equal logs end in the same entry. -/
theorem grants_iff_lastPair_equal :
    (holding 1 [⟨1,1,[]⟩]).grants (cfgOf 7) .ok ⟨2,8,1,1⟩ = true ∨
      (holding 1 [⟨1,1,[]⟩]).grants (cfgOf 8) .ok ⟨2,7,1,1⟩ = true :=
  ((grants_iff_lastPair (cfgOf 7) (holding 1 [⟨1,1,[]⟩]) .ok ⟨2,8,1,1⟩ (by decide)).2.1
    (cfgOf 8) (holding 1 [⟨1,1,[]⟩]) .ok ⟨2,7,1,1⟩ (by decide) (by decide)
    (by decide)).mpr fun _ => rfl

/-- A candidate of term 4 whose two entries are of term 1 gets the vote of a node whose one entry
is of term 3, and two nodes with one entry each, of terms 1 and 2, refuse each other. -/
theorem older_log_gets_vote :
    let voter := holding 3 [⟨3,1,[]⟩]
    let candidate := holding 4 [⟨1,1,[]⟩,⟨1,2,[]⟩]
    let request := candidate.produceRequestVoteRequest (cfgOf 8)
    let newer := holding 4 [⟨2,1,[]⟩]
    let older := holding 4 [⟨1,1,[]⟩]
    voter.FreeFor .ok request ∧ voter.grants (cfgOf 7) .ok request = true ∧
      ¬voter.logs.lastPair ≤ request.lastPair ∧ request.lastLogTerm < voter.logs.lastLogTerm ∧
      newer.FreeFor .ok (older.produceRequestVoteRequest (cfgOf 8)) ∧
      older.FreeFor .ok (newer.produceRequestVoteRequest (cfgOf 7)) ∧
      newer.grants (cfgOf 7) .ok (older.produceRequestVoteRequest (cfgOf 8)) = false ∧
      older.grants (cfgOf 8) .ok (newer.produceRequestVoteRequest (cfgOf 7)) = false := by
  decide

end Examples

end RaftNode
end Foskv.Raft
