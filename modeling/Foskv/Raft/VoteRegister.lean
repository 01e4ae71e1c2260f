import Foskv.Raft.Elections

/-! The vote register: granting a vote does not fill it and winning an election empties it. -/
namespace Foskv.Raft
namespace RaftNode

/-- The request is granted although the register is empty, or is emptied for its term. -/
def GrantsUnrecorded (n : RaftNode) (request : RequestVoteRequest) : Prop :=
  (n.currentTerm < request.term ∨ n.currentTerm = request.term ∧ n.votedFor = none) ∧
    upToDateLog n.logs request = true

/-- The response makes the node leader. -/
def WinsBy (cfg : RaftConfig) (n : RaftNode) (response : RequestVoteResponse) : Prop :=
  response.header.term = n.currentTerm ∧ n.role = .candidate ∧ response.voteGranted = true ∧
    cfg.peerCount/2 < n.votes + 1

section Decidable
variable (cfg : RaftConfig) (n : RaftNode)

instance (request : RequestVoteRequest) : Decidable (n.GrantsUnrecorded request) :=
  inferInstanceAs (Decidable ((_ ∨ _ ∧ _) ∧ _))

instance (response : RequestVoteResponse) : Decidable (n.WinsBy cfg response) :=
  inferInstanceAs (Decidable (_ ∧ _ ∧ _ ∧ _))

end Decidable

section Defects
variable [Protobuf] {cfg : RaftConfig} {n n' : RaftNode} {io : DiskOutcome} {sender : MemberId}
  {live : List ℕ} {events : List Event}

/-- Such a grant leaves a vote of the current term and an empty register. -/
theorem GrantsUnrecorded.step {request : RequestVoteRequest} (h : n.GrantsUnrecorded request)
    (hs : n.step cfg io (.receive sender (.requestVote request) live) = some (n',events)) :
    n'.votedFor = none ∧ .voted n'.currentTerm request.candidateId n.logs.entries ∈ events := by
  have hterm : ¬request.term < n.currentTerm := by
    have := h.1
    omega
  have hobs := observeTerm_observed n io (Nat.le_of_not_lt hterm)
  have hfree : (n.observeTerm io request.term).votedFor = none := by
    unfold observeTerm
    split_ifs with ht
    · obtain ⟨p,hp⟩ := stepDown_eq n io request.term request.term
      rw [hp]
      rfl
    · exact (h.1.resolve_left ht).2
  have hlogs : (n.observeTerm io request.term).logs.entries = n.logs.entries ∧
      upToDateLog (n.observeTerm io request.term).logs request = true := by
    obtain ⟨r,v,vf,p,heq⟩ := hobs.eq
    rw [heq]
    exact ⟨rfl,h.2⟩
  simp only [RaftNode.step, receive, handleRequestVoteRequest, if_neg hterm, canVote, hfree,
    hlogs.2, Option.some.injEq, Prod.mk.injEq] at hs
  obtain ⟨rfl,rfl⟩ := hs
  refine ⟨hfree,?_⟩
  simp [voteEvents, produceRequestVoteResponse, hlogs.1]

theorem WinsBy.step {response : RequestVoteResponse} (h : n.WinsBy cfg response)
    (hs : n.step cfg io (.receive sender (.requestVoteReply response) live) = some (n',events)) :
    n'.votedFor = none ∧ n'.currentTerm = n.currentTerm := by
  obtain ⟨hterm,hrole,hgrant,hmaj⟩ := h
  simp only [RaftNode.step, receive, handleRequestVoteResponse, hterm, hrole, hgrant, hmaj,
    lt_irrefl, if_false, if_true, and_self, reduceCtorEq, Option.some.injEq, Prod.mk.injEq] at hs
  obtain ⟨rfl,-⟩ := hs
  obtain ⟨p,hp⟩ := becomeLeader_eq _ io
  rw [hp]
  exact ⟨rfl,rfl⟩

end Defects
end RaftNode

namespace Cluster

/-- The register of every member names exactly the votes it gave in its current term. -/
def Truthful (s : Cluster) : Prop :=
  ∀ m c, (s.node m).votedFor = some c ↔ VotedFor s.history m (s.node m).currentTerm c

/-- The delivered packet neither gets a vote the register does not record nor wins an
election. -/
def RegisterSafe (C : ClusterConfig) (s : Cluster) (p : Packet) : Prop :=
  (∀ request ∈ p.body.voteRequest, ¬(s.node p.receiver).GrantsUnrecorded request) ∧
    ∀ response ∈ p.body.voteResponse, ¬(s.node p.receiver).WinsBy (C.cfg p.receiver) response

instance (C : ClusterConfig) (s : Cluster) (p : Packet) : Decidable (RegisterSafe C s p) :=
  inferInstanceAs (Decidable ((∀ request ∈ p.body.voteRequest,
    ¬(s.node p.receiver).GrantsUnrecorded request) ∧ ∀ response ∈ p.body.voteResponse,
      ¬(s.node p.receiver).WinsBy (C.cfg p.receiver) response))

namespace Truthful
variable [Protobuf] {C : ClusterConfig} {s s' : Cluster} {l : Label} {m₀ : MemberId}
  {input : Input} {n' : RaftNode} {events : List Event} {rest : List Packet}

/-- A vote given now is one the register of the node names after the step. -/
theorem new_vote (hok : onDelivery (RegisterSafe C) s l)
    (h : Acts C s l m₀ input n' events rest s') {term : ℕ} {c : MemberId}
    {log : List LogEntry} (hv : .voted term c log ∈ events) : n'.votedFor = some c := by
  have ho := h.origin hv
  cases ho with
  | ownVote _ => rfl
  | @voted sender request live n' hobs hfree hlog =>
    have hno := (hok.apply (h.packet rfl).1).1 request rfl
    simp only [RaftNode.canVote, Bool.decide_or, Bool.or_eq_true, decide_eq_true_eq] at hfree
    obtain ⟨ht,rfl⟩ | ⟨ht,-,-⟩ := hobs
    · exact hfree.resolve_left fun hnone => hno ⟨Or.inr ⟨ht,hnone⟩,hlog⟩
    · exact absurd ⟨Or.inl ht,hlog⟩ hno

theorem act (ht : Truthful s) (hs : Electoral C s) (hok : onDelivery (RegisterSafe C) s l)
    (h : Acts C s l m₀ input n' events rest s') : Truthful s' := by
  intro m c
  by_cases hm : m = m₀
  · subst hm
    rw [h.node_self]
    have hold : VotedFor s'.history m n'.currentTerm c ↔
        VotedFor s.history m n'.currentTerm c ∨ ∃ log, .voted n'.currentTerm c log ∈ events := by
      simp only [VotedFor, h.mem_history, true_and, exists_or]
    have hfuture : (s.node m).currentTerm < n'.currentTerm →
        ¬VotedFor s.history m n'.currentTerm c := by
      rintro hlt ⟨log,hlog⟩
      have := hs.voted_le hlog
      omega
    have hnew : (∃ log, .voted n'.currentTerm c log ∈ events) → n'.votedFor = some c := by
      rintro ⟨log,hlog⟩
      exact new_vote hok h hlog
    rw [hold]
    have hst := h.transition.standing
    cases hst with
    | kept same =>
      rw [same.votedFor, same.term, ← ht m c]
      rw [same.votedFor, same.term] at hnew
      exact (or_iff_left_of_imp hnew).symm
    | raised hterm term _ _ votedFor =>
      have hlt : (s.node m).currentTerm < n'.currentTerm := by omega
      have hno := hfuture hlt
      rw [votedFor] at hnew ⊢
      simp only [reduceCtorEq, false_iff, not_or]
      exact ⟨hno,fun he => by simpa using hnew he⟩
    | started _ hevent =>
      have hno := hfuture (Nat.lt_succ_self _)
      constructor
      · intro hc
        obtain rfl := Option.some.inj hc
        exact Or.inr ⟨_,hevent⟩
      · exact fun hc => hnew (hc.resolve_left hno)
    | counted _ _ _ =>
      have hiff := ht m c
      change (s.node m).votedFor = some c ↔ _
      change _ → (s.node m).votedFor = some c at hnew
      change _ ↔ VotedFor s.history m (s.node m).currentTerm c ∨ _
      rw [← hiff]
      exact (or_iff_left_of_imp hnew).symm
    | elected hterm hrole hgrant hmajority _ =>
      exact absurd ⟨hterm,hrole,hgrant,hmajority⟩
        ((hok.apply (h.packet rfl).1).2 _ rfl)
  · rw [h.node_ne hm]
    have hold : VotedFor s'.history m (s.node m).currentTerm c ↔
        VotedFor s.history m (s.node m).currentTerm c := by
      simp only [VotedFor, h.mem_history, hm, false_and, or_false]
    rw [hold]
    exact ht m c

omit [Protobuf] in
theorem init (kv : MemberId → Storage) : Truthful (Cluster.init kv) := by
  intro m c
  simp [Cluster.init, RaftNode.fresh, VotedFor]

omit [Protobuf] in
theorem lose (ht : Truthful s) (h : Loses s s') : Truthful s' := by
  intro m c
  rw [h.node, h.history]
  exact ht m c

end Truthful

/-- In every state of the run of `labels` the registers are truthful, and while a member stays
in a term its register, once full, names the same candidate. -/
def RegistersTellTruth [Protobuf] (C : ClusterConfig) (kv : MemberId → Storage)
    (labels : List Label) : Prop :=
  ∀ ks s, ks <+: labels → Cluster.Run C anyStep kv ks s → Truthful s ∧
    ∀ js t, ks ++ js <+: labels → Cluster.Run C anyStep kv (ks ++ js) t → ∀ m c,
      (t.node m).currentTerm = (s.node m).currentTerm → (s.node m).votedFor = some c →
        (t.node m).votedFor = some c

section Register
variable [Protobuf] {C : ClusterConfig} {s s' : Cluster} {l : Label}
  {kv : MemberId → Storage} {labels : List Label}

theorem Run.truthful (h : Cluster.Run C (onDelivery (RegisterSafe C)) kv labels s) :
    Truthful s :=
  Run.invariant (.init kv) (fun ht hl => ht.lose hl)
    (fun hr ht hok ha => ht.act (Run.electoral hr) hok ha) h

/-- A step that is not safe for the register leaves a state in which it is wrong. -/
theorem registerSafe_of_truthful (hs : Electoral C s) (ht : Truthful s')
    (h : s.step C l = some s') : onDelivery (RegisterSafe C) s l := by
  cases l with
  | deliver k io live =>
    intro p hp
    obtain ⟨q,hq,h⟩ := Option.bind_eq_some_iff.mp h
    obtain rfl : p = q := Option.some.inj (hp.symm.trans hq)
    obtain ⟨⟨n',events⟩,hn,h⟩ := Option.bind_eq_some_iff.mp h
    cases h
    have hreg := ht p.receiver
    simp only [Function.update_self] at hreg
    constructor
    · intro request hreq hbad
      rw [Body.mem_voteRequest.mp hreq] at hn
      obtain ⟨hnone,hvote⟩ := hbad.step hn
      have hsome := (hreg request.candidateId).mpr
        ⟨_,List.mem_append_right _ (List.mem_map_of_mem hvote)⟩
      simp [hnone] at hsome
    · intro response hresp hbad
      rw [Body.mem_voteResponse.mp hresp] at hn
      obtain ⟨hnone,hterm⟩ := hbad.step hn
      obtain ⟨K,hK,-,-⟩ := hs.candidate p.receiver hbad.2.1
      obtain ⟨log,hlog⟩ := hK.voted _ hK.self
      have hsome := (hreg p.receiver).mpr ⟨log,hterm.symm ▸ List.mem_append_left _ hlog⟩
      simp [hnone] at hsome
  | _ => trivial

/-- The registers tell the truth in a run exactly when no step of it gets an unrecorded vote
or makes a member leader. -/
theorem registers_tell_truth_iff (h : Cluster.Run C anyStep kv labels s) :
    RegistersTellTruth C kv labels ↔
      Cluster.Run C (onDelivery (RegisterSafe C)) kv labels s := by
  constructor
  · intro hall
    induction h with
    | nil => exact .nil
    | @snoc ls s l s' before _ next ih =>
      have hbefore := ih fun ks t hk ht => by
        obtain ⟨htruth,hkeep⟩ := hall ks t (hk.trans (List.prefix_append _ _)) ht
        exact ⟨htruth,fun js u hj => hkeep js u (hj.trans (List.prefix_append _ _))⟩
      have hend := (hall _ s' (List.prefix_refl _) (before.snoc trivial next)).1
      exact hbefore.snoc (registerSafe_of_truthful (Run.electoral before) hend next) next
  · intro hsafe
    have htruth : ∀ ks t, ks <+: labels → Cluster.Run C anyStep kv ks t → Truthful t := by
      rintro ks t ⟨js,rfl⟩ ht
      obtain ⟨u,hu⟩ := hsafe.of_append
      exact ht.det hu ▸ Run.truthful hu
    refine fun ks s hk hs => ⟨htruth ks s hk hs,fun js t hj ht m c hterm hc => ?_⟩
    have hsub : s.history ⊆ t.history :=
      Generic.Run.rel_of_append (R := fun s t => s.history ⊆ t.history)
        (fun _ => List.Subset.refl _) (fun hr hn => List.Subset.trans hr (step_history hn)) hs ht
    refine (htruth _ t hj ht m c).mpr ?_
    rw [hterm]
    exact ((htruth ks s hk hs m c).mp hc).mono hsub

end Register

section Trio
attribute [local instance] Proto3.protobuf

theorem registers_tell_truth_trio : RegistersTellTruth trio (fun _ => Storage.empty)
    [.electionTimeout 1,.electionTimeout 2,delivery 0] := by
  obtain ⟨s,hs,-⟩ : ∃ s, Cluster.Run trio (onDelivery (RegisterSafe trio))
      (fun _ => Storage.empty) [.electionTimeout 1,.electionTimeout 2,delivery 0] s ∧ True :=
    Generic.Run.of_check (by decide) (by decide)
  exact (registers_tell_truth_iff (hs.mono fun _ _ _ => trivial)).mpr hs

/-- Member 2 votes for member 1 and its register stays empty. -/
theorem vote_not_recorded : ¬RegistersTellTruth trio (fun _ => Storage.empty)
    [.electionTimeout 1,delivery 0] := by
  obtain ⟨s,hs,hvote,hterm,hnone⟩ : ∃ s, Cluster.Run trio anyStep (fun _ => Storage.empty)
      [.electionTimeout 1,delivery 0] s ∧ (2,Event.voted 1 1 []) ∈ s.history ∧
      (s.node 2).currentTerm = 1 ∧ (s.node 2).votedFor = none :=
    Generic.Run.of_check (Generic.accepted_of_forall (fun _ _ => trivial) _ _) (by decide)
  intro h
  have htruth := (h _ s (List.prefix_refl _) hs).1 2 1
  rw [hnone, hterm] at htruth
  exact absurd (htruth.mpr ⟨_,hvote⟩) (by simp)

end Trio
end Cluster
end Foskv.Raft
