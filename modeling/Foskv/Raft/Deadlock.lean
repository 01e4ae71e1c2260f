import Foskv.Raft.Campaigns
import Foskv.Raft.Logs

/-! When a cluster at rest can elect a leader again, and when it never will. -/
namespace Foskv.Raft
open Generic

/-- The comparison of logs that a vote stands for. -/
def Passes (own bid : List LogEntry) : Prop :=
  own.length < bid.length ∨ bid.length = own.length ∧ lastTermOf bid = lastTermOf own

theorem RaftNode.upToDateLog_iff {l : RaftLog} (hfirst : l.firstIndex = 1) {bid : List LogEntry}
    {request : RequestVoteRequest} (hindex : request.lastLogIndex = bid.length)
    (hterm : request.lastLogTerm = lastTermOf bid) :
    RaftNode.upToDateLog l request = true ↔ Passes l.entries bid := by
  simp only [RaftNode.upToDateLog, RaftLog.lastLogIndex_eq hfirst, RaftLog.lastLogTerm_eq, hindex,
    hterm, Bool.decide_or, Bool.decide_and, Bool.or_eq_true, Bool.and_eq_true,
    decide_eq_true_eq, Passes]

/-- A message that neither asks for a vote nor gives one, and carries no entries. -/
def Body.Idle : Body → Prop
  | .requestVote _ => False
  | .appendEntries _ request => request.entries = []
  | .requestVoteReply response => response.voteGranted = false
  | .appendEntriesReply _ _ => True

instance : DecidablePred Body.Idle
  | .requestVote _ => .isFalse id
  | .appendEntries _ request => inferInstanceAs (Decidable (request.entries = []))
  | .requestVoteReply response => inferInstanceAs (Decidable (response.voteGranted = false))
  | .appendEntriesReply _ _ => .isTrue trivial

namespace Cluster

/-- Votes answer bids: every request in flight carries the log its sender had when it voted for
itself, and every vote was given by comparison with such a log. -/
structure Polls (s : Cluster) : Prop where
  requests : ∀ p ∈ s.network, ∀ {request}, p.body = .requestVote request → ∃ bid,
    (p.sender,.voted request.term p.sender bid) ∈ s.history ∧
    request.lastLogIndex = bid.length ∧ request.lastLogTerm = lastTermOf bid
  votes : ∀ {m t c own}, (m,.voted t c own) ∈ s.history →
    ∃ bid, (c,.voted t c bid) ∈ s.history ∧ Passes own bid

namespace Polls

theorem init (kv : MemberId → Storage) : Polls (Cluster.init kv) where
  requests p hp := by cases hp
  votes h := by cases h

theorem lose {s s' : Cluster} (hs : Polls s) (h : Loses s s') : Polls s' where
  requests p hp := by
    rw [h.history]
    exact hs.requests p (h.network.subset hp)
  votes := by
    rw [h.history]
    exact hs.votes

variable [Protobuf] {C : ClusterConfig} {s s' : Cluster} {l : Label} {m₀ : MemberId}
  {input : Input} {n' : RaftNode} {events : List Event} {rest : List Packet}

theorem act (hb : Polls s) (hs : Addressed C s) (h : Acts C s l m₀ input n' events rest s') :
    Polls s' where
  requests p hp request hbody := by
    obtain hp | ⟨rfl,he⟩ := h.mem_network hp
    · obtain ⟨bid,hbid,hlast⟩ := hb.requests p hp hbody
      exact ⟨bid,h.history_subset hbid,hlast⟩
    · rw [hbody] at he
      have hst := h.transition.standing
      have ho := h.origin he
      cases ho with
      | requestVote _ _ _ =>
        cases hst with
        | kept same => exact absurd same.term (Nat.succ_ne_self _)
        | started _ hevent =>
          have hfirst := hs.firstIndex p.sender
          exact ⟨_,h.mem_history.mpr (Or.inr ⟨rfl,hevent⟩),RaftLog.lastLogIndex_eq hfirst,
            RaftLog.lastLogTerm_eq _⟩
  votes {m t c own} hv := by
    obtain hv | ⟨rfl,he⟩ := h.mem_history.mp hv
    · obtain ⟨bid,hbid,hpass⟩ := hb.votes hv
      exact ⟨bid,h.history_subset hbid,hpass⟩
    · have ho := h.origin he
      cases ho with
      | ownVote _ => exact ⟨_,hv,Or.inr ⟨rfl,rfl⟩⟩
      | @voted sender request live _ hobs hfree hlog =>
        have hp := h.packet_mem rfl
        have hauthor : request.candidateId = sender := hs.author _ hp
        obtain ⟨bid,hbid,hlen,hterm⟩ := hb.requests _ hp rfl
        rw [hauthor]
        exact ⟨bid,h.history_subset hbid,
          (RaftNode.upToDateLog_iff (hs.firstIndex m) hlen hterm).mp hlog⟩

end Polls

/-- Nobody leads, and nothing in flight can change a log or an election. -/
structure AtRest (C : ClusterConfig) (s : Cluster) : Prop where
  leaderless : ∀ m ∈ C.members, (s.node m).role ≠ .leader
  idle : ∀ p ∈ s.network, p.body.Idle

instance (C : ClusterConfig) (s : Cluster) : Decidable (AtRest C s) :=
  decidable_of_iff ((∀ m ∈ C.members, (s.node m).role ≠ .leader) ∧ ∀ p ∈ s.network, p.body.Idle)
    ⟨fun h => ⟨h.1,h.2⟩,fun h => ⟨h.1,h.2⟩⟩

/-- What stays as it was in `s` as long as no member becomes leader. -/
structure Stalled (C : ClusterConfig) (s t : Cluster) : Prop where
  leaderless : ∀ m ∈ C.members, (t.node m).role ≠ .leader
  entries : ∀ m, (t.node m).logs.entries = (s.node m).logs.entries
  term_le : ∀ m, (s.node m).currentTerm ≤ (t.node m).currentTerm
  requests : ∀ p ∈ t.network, ∀ {request}, p.body = .requestVote request →
    (s.node p.sender).currentTerm < request.term ∧
    request.lastLogIndex = (s.node p.sender).logs.lastLogIndex ∧
    request.lastLogTerm = (s.node p.sender).logs.lastLogTerm
  appends : ∀ p ∈ t.network, ∀ {callback request}, p.body = .appendEntries callback request →
    request.entries = []
  granted : ∀ p ∈ t.network, ∀ {response}, p.body = .requestVoteReply response →
    response.voteGranted = true → (s.node p.receiver).currentTerm < response.header.term
  votes : ∀ {m term c log}, (m,.voted term c log) ∈ t.history →
    (s.node c).currentTerm < term → m ∈ supporters C s c

namespace Stalled
variable {C : ClusterConfig} {s t t' : Cluster} {l : Label}

/-- A cluster at rest has not moved yet. -/
theorem refl (hs : Electoral C s) (hp : Polls s) (hrest : s.AtRest C) : Stalled C s s where
  leaderless := hrest.leaderless
  entries _ := rfl
  term_le _ := le_rfl
  requests p hmem request hbody := by
    have hidle := hrest.idle p hmem
    rw [hbody] at hidle
    exact hidle.elim
  appends p hmem callback request hbody := by
    have hidle := hrest.idle p hmem
    rw [hbody] at hidle
    exact hidle
  granted p hmem response hbody hgrant := by
    have hidle := hrest.idle p hmem
    rw [hbody] at hidle
    exact absurd hgrant (by simp [show response.voteGranted = false from hidle])
  votes hv hlt := by
    obtain ⟨bid,hbid,-⟩ := hp.votes hv
    have hle := hs.voted_le hbid
    omega

theorem lose (h : Stalled C s t) (hl : Loses t t') : Stalled C s t' where
  leaderless := hl.node ▸ h.leaderless
  entries := hl.node ▸ h.entries
  term_le := hl.node ▸ h.term_le
  requests p hp := h.requests p (hl.network.subset hp)
  appends p hp := h.appends p (hl.network.subset hp)
  granted p hp := h.granted p (hl.network.subset hp)
  votes := by
    rw [hl.history]
    exact h.votes

section Act
variable [Protobuf] {m₀ : MemberId} {input : Input} {n' : RaftNode} {events : List Event}
  {rest : List Packet}

omit [Protobuf] in
/-- The log of a node still has the end it had. -/
theorem log_eq (h : Stalled C s t) (hs : Addressed C s) (ht : Addressed C t) (m : MemberId) :
    (t.node m).logs.lastLogIndex = (s.node m).logs.lastLogIndex ∧
      (t.node m).logs.lastLogTerm = (s.node m).logs.lastLogTerm := by
  rw [RaftLog.lastLogIndex_eq (hs.firstIndex m), RaftLog.lastLogIndex_eq (ht.firstIndex m),
    RaftLog.lastLogTerm_eq, RaftLog.lastLogTerm_eq, h.entries m]
  exact ⟨rfl,rfl⟩

/-- Without leaders and entries in flight no log changes. -/
theorem entries_act (h : Stalled C s t) (ht : Addressed C t)
    (ha : Acts C t l m₀ input n' events rest t') (m : MemberId) :
    (t'.node m).logs.entries = (s.node m).logs.entries := by
  rw [← h.entries m]
  by_cases hm : m = m₀
  · subst hm
    rw [ha.node_self]
    have hrole := h.leaderless m (ha.member ht)
    have hchange := ha.transition.logChange
    cases hchange with
    | kept heq _ => exact heq
    | elected _ => rfl
    | received _ _ hne _ _ => exact absurd (h.appends _ (ha.packet_mem rfl) rfl) hne
    | queued hlead _ _ _ _ => exact absurd hlead hrole
  · rw [ha.node_ne hm]

/-- Whoever votes now supports the candidate by the logs of `s`. -/
theorem votes_act (h : Stalled C s t) (hs : Addressed C s) (ht : Addressed C t)
    (ha : Acts C t l m₀ input n' events rest t') {m c : MemberId} {term : ℕ} {log : List LogEntry}
    (hv : (m,.voted term c log) ∈ t'.history) (hlt : (s.node c).currentTerm < term) :
    m ∈ supporters C s c := by
  obtain hv | ⟨rfl,he⟩ := ha.mem_history.mp hv
  · exact h.votes hv hlt
  · have hmember := ha.member ht
    have ho := ha.origin he
    cases ho with
    | ownVote _ => exact self_mem_supporters hmember
    | @voted sender request live _ hobs hfree hlog =>
      have hp := ha.packet_mem rfl
      have hauthor : request.candidateId = sender := ht.author _ hp
      obtain ⟨-,hindex,hterm⟩ := h.requests _ hp rfl
      obtain ⟨hlen,hlast⟩ := h.log_eq hs ht m
      rw [hauthor]
      refine mem_supporters.mpr ⟨hmember,?_⟩
      simp only [RaftNode.upToDateLog, hlen, hlast, hindex, hterm] at hlog
      exact hlog

/-- A leader would have the votes of a majority by the logs of `s`. -/
theorem leaderless_act (h : Stalled C s t) (hs : Addressed C s) (ht : Electoral C t)
    (ha : Acts C t l m₀ input n' events rest t')
    (hno : ¬(2 ≤ C.members.length ∧
      ∃ a ∈ C.members, Majority C.members.toFinset (supporters C s a)))
    {m : MemberId} (hm : m ∈ C.members) : (t'.node m).role ≠ .leader := by
  intro hrole
  by_cases hm₀ : m = m₀
  · subst hm₀
    rw [ha.node_self] at hrole
    obtain ⟨hlead,-⟩ | hevent := ha.transition.leads hrole
    · exact h.leaderless m hm hlead
    have hmem : (m,.becameLeader n'.currentTerm (t.node m).logs.entries) ∈ t'.history :=
      ha.mem_history.mpr (Or.inr ⟨rfl,hevent⟩)
    obtain ⟨⟨Q,hQ,hmajority⟩,-⟩ := (ht.act ha).elected hmem
    have ho := ha.origin hevent
    generalize hterm : n'.currentTerm = term at ho hQ
    cases ho with
    | @becameLeader sender response live p hresponse _ hgrant _ =>
      have hp := ha.packet_mem rfl
      have hlt := h.granted _ hp rfl hgrant
      refine hno ⟨?_,m,hm,hmajority.superset (fun i hi => ?_) fun i hi => ?_⟩
      · have hpair : ({sender,m} : Finset MemberId) ⊆ C.members.toFinset := by
          intro i hi
          obtain rfl | hi := Finset.mem_insert.mp hi
          · exact List.mem_toFinset.mpr (ht.addressed.members _ hp).1
          · exact Finset.mem_singleton.mp hi ▸ List.mem_toFinset.mpr hm
        rw [← C.card_members, ← Finset.card_pair (ht.addressed.other _ hp).symm]
        exact Finset.card_le_card hpair
      · obtain ⟨log,hv⟩ := hQ.voted i hi
        exact h.votes_act hs ht.addressed ha hv (hresponse ▸ hlt)
      · exact List.mem_toFinset.mpr (mem_supporters.mp hi).1
  · rw [ha.node_ne hm₀] at hrole
    exact h.leaderless m hm hrole

theorem act (h : Stalled C s t) (hs : Addressed C s) (ht : Electoral C t)
    (ha : Acts C t l m₀ input n' events rest t')
    (hno : ¬(2 ≤ C.members.length ∧
      ∃ a ∈ C.members, Majority C.members.toFinset (supporters C s a))) : Stalled C s t' where
  leaderless _ hm := h.leaderless_act hs ht ha hno hm
  entries := h.entries_act ht.addressed ha
  term_le m := (h.term_le m).trans (ha.term_le m)
  requests p hp request hbody := by
    obtain hp | ⟨rfl,he⟩ := ha.mem_network hp
    · exact h.requests p hp hbody
    · rw [hbody] at he
      have ho := ha.origin he
      cases ho with
      | requestVote _ _ _ =>
        exact ⟨Nat.lt_succ_of_le (h.term_le _),h.log_eq hs ht.addressed _⟩
  appends p hp callback request hbody := by
    obtain hp | ⟨rfl,he⟩ := ha.mem_network hp
    · exact h.appends p hp hbody
    · rw [hbody] at he
      have hnot := h.leaderless _ (ha.member ht.addressed)
      have ho := ha.origin he
      cases ho with
      | heartbeat _ _ _ => rfl
      | reissued hrole _ _ _ => exact absurd hrole hnot
      | replicated hrole _ _ _ _ => exact absurd hrole hnot
  granted p hp response hbody hgrant := by
    obtain hp | ⟨rfl,he⟩ := ha.mem_network hp
    · exact h.granted p hp hbody hgrant
    · rw [hbody] at he
      have ho := ha.origin he
      cases ho with
      | voteReply hvote =>
        obtain ⟨hobs,-,-⟩ := hvote hgrant
        have hlt := (h.requests _ (ha.packet_mem rfl) rfl).1
        exact hlt.trans_le hobs.le.2.ge
  votes hv hlt := h.votes_act hs ht.addressed ha hv hlt

end Act
end Stalled

section Runs
variable [Protobuf] {C : ClusterConfig} {s : Cluster} {kv : MemberId → Storage}
  {labels : List Label}

theorem Run.polls {ok : Cluster → Label → Prop} (h : Cluster.Run C ok kv labels s) : Polls s :=
  Run.invariant (.init kv) (fun hs hl => hs.lose hl)
    (fun hr hb _ ha => hb.act (Run.addressed hr) ha) h

/-- From a state at rest a leader can be elected, by any steps at all, exactly when the cluster has
several members and a majority would let some member pass. -/
theorem elects_iff (h : Cluster.Run C anyStep kv labels s) (hrest : s.AtRest C) :
    (∃ ls t a, Generic.Run (step C) anyStep s ls t ∧ a ∈ C.members ∧ (t.node a).role = .leader) ↔
      2 ≤ C.members.length ∧ ∃ a ∈ C.members, Majority C.members.toFinset (supporters C s a) := by
  constructor
  · rintro ⟨ls,t,a,hrun,ha,hrole⟩
    by_contra hno
    refine (Generic.Run.invariant (P := Stalled C s)
      (.refl (Run.electoral h) (Run.polls h) hrest) ?_ hrun).leaderless a ha hrole
    intro ms u l u' hu hstalled _ hstep
    obtain hl | ⟨m,input,n',events,rest,hacts⟩ := step_cases hstep
    · exact hstalled.lose hl
    · exact hstalled.act (Run.addressed h) (Run.electoral (h.append hu)) hacts hno
  · rintro ⟨hlen,a,ha,hmajority⟩
    have hok : Admits anyStep := ⟨fun _ _ => trivial,fun _ _ _ => trivial,fun _ _ => trivial⟩
    obtain ⟨ls,t,hrun,hlead⟩ := exists_leads hok hlen ha (hrest.leaderless a ha) hmajority
    exact ⟨ls,t,a,hrun,ha,hlead.role⟩

end Runs

section Trio
attribute [local instance] Proto3.protobuf

/-- Member 3 leads term 1 and puts four values; member 1 leads term 2, puts two, leads term 4, sends
its two entries to member 2 twice, because of two late responses, and puts two more. Then there are
three logs of four entries with three last terms: all bids fail from now on. -/
theorem trio_deadlocked : ∃ s, Cluster.Run trio anyStep (fun _ => Storage.empty)
    ([.electionTimeout 3,delivery 1,delivery 1,putting 3 1,putting 3 2,putting 3 3,putting 3 4,
      delivery 0,.electionTimeout 1,delivery 9,delivery 10,putting 1 5,putting 1 6,
      .electionTimeout 2,delivery 14,.electionTimeout 1,delivery 16,delivery 17,delivery 10,
      delivery 16,.heartbeatTimeout 1,delivery 11,delivery 18,.heartbeatTimeout 1,delivery 15,
      delivery 17,putting 1 7,putting 1 8,delivery 14,.electionTimeout 2,delivery 25] ++
      List.replicate 27 (.lose 0)) s ∧
    ¬∃ ls t a, Generic.Run (step trio) anyStep s ls t ∧ a ∈ trio.members ∧
      (t.node a).role = .leader := by
  obtain ⟨s,hs,hrest,hno⟩ : ∃ s, Cluster.Run trio anyStep (fun _ => Storage.empty)
      ([.electionTimeout 3,delivery 1,delivery 1,putting 3 1,putting 3 2,putting 3 3,putting 3 4,
        delivery 0,.electionTimeout 1,delivery 9,delivery 10,putting 1 5,putting 1 6,
        .electionTimeout 2,delivery 14,.electionTimeout 1,delivery 16,delivery 17,delivery 10,
        delivery 16,.heartbeatTimeout 1,delivery 11,delivery 18,.heartbeatTimeout 1,delivery 15,
        delivery 17,putting 1 7,putting 1 8,delivery 14,.electionTimeout 2,delivery 25] ++
        List.replicate 27 (.lose 0)) s ∧
      s.AtRest trio ∧
        ¬∃ a ∈ trio.members, Majority trio.members.toFinset (supporters trio s a) :=
    Generic.Run.of_check (Generic.accepted_of_forall (fun _ _ => trivial) _ _) (by decide)
  exact ⟨s,hs,fun h => hno ((elects_iff hs hrest).mp h).2⟩

end Trio
end Cluster
end Foskv.Raft
