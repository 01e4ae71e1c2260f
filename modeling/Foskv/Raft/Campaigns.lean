import Foskv.Raft.Elections
import Mathlib.Data.Finset.Lattice.Fold

/-! Campaigns: a member that enough others would let pass can become leader, by the steps of one
run. -/
namespace Foskv.Raft
open Generic

namespace RaftNode

/-- A vote request of a larger term that the comparison of logs lets through is granted. -/
theorem step_grants [Protobuf] {cfg : RaftConfig} {n : RaftNode} {io : DiskOutcome}
    {sender : MemberId} {request : RequestVoteRequest} {live : List ℕ}
    (hterm : n.currentTerm < request.term) (hlog : upToDateLog n.logs request = true) :
    ∃ p, n.step cfg io (.receive sender (.requestVote request) live) =
      some (n.lowered request.term p,
        [.voted request.term request.candidateId n.logs.entries,
          .sent sender (.requestVoteReply ⟨⟨cfg.clusterId,cfg.memberId,request.term⟩,true⟩)]) := by
  obtain ⟨p,hp⟩ := stepDown_eq n io request.term request.term
  have hobs : n.observeTerm io request.term = n.lowered request.term p := by
    rw [observeTerm, if_pos hterm, hp]
  have hgrant : ((n.lowered request.term p).canVote request.candidateId &&
      upToDateLog (n.lowered request.term p).logs request) = true := by
    rw [Bool.and_eq_true]
    exact ⟨by simp [canVote, lowered],hlog⟩
  refine ⟨p,?_⟩
  simp only [step, receive, handleRequestVoteRequest, if_neg (Nat.lt_asymm hterm), hobs, hgrant]
  rfl

/-- A vote request of a larger term, granted or not, leaves a follower with the same log. -/
theorem step_yields [Protobuf] {cfg : RaftConfig} {n : RaftNode} {io : DiskOutcome}
    {sender : MemberId} {request : RequestVoteRequest} {live : List ℕ}
    (hterm : n.currentTerm < request.term) :
    ∃ n' events, n.step cfg io (.receive sender (.requestVote request) live) = some (n',events) ∧
      n'.role = .follower ∧ n'.logs.entries = n.logs.entries := by
  obtain ⟨p,hp⟩ := stepDown_eq n io request.term request.term
  refine ⟨(n.handleRequestVoteRequest cfg io request).1,_,rfl,?_⟩
  rw [handleRequestVoteRequest, if_neg (Nat.lt_asymm hterm), observeTerm, if_pos hterm, hp]
  exact ⟨rfl,rfl⟩

/-- A granted vote of the own term is counted, and the majority makes the candidate leader. -/
theorem step_counts [Protobuf] {cfg : RaftConfig} {n : RaftNode} {io : DiskOutcome}
    {sender : MemberId} {response : RequestVoteResponse} {live : List ℕ}
    (hterm : response.header.term = n.currentTerm) (hrole : n.role = .candidate)
    (hgrant : response.voteGranted = true) :
    ∃ n' events, n.step cfg io (.receive sender (.requestVoteReply response) live) =
        some (n',events) ∧ n'.currentTerm = n.currentTerm ∧
      (cfg.peerCount/2 < n.votes + 1 → n'.role = .leader) ∧
      (n.votes + 1 ≤ cfg.peerCount/2 → n'.role = .candidate ∧ n'.votes = n.votes + 1) := by
  refine ⟨(n.handleRequestVoteResponse cfg io response).1,_,rfl,?_⟩
  unfold handleRequestVoteResponse
  rw [if_neg (by omega), if_neg (by omega), if_neg (by simp [hrole]), if_pos hgrant]
  dsimp only
  split_ifs with hm
  · obtain ⟨p,hp⟩ := becomeLeader_eq { n with votes := n.votes + 1 } io
    rw [hp]
    exact ⟨rfl,fun _ => rfl,fun hle => absurd hm.1 (by omega)⟩
  · exact ⟨rfl,fun hlt => absurd ⟨hlt,hrole⟩ hm,fun _ => ⟨hrole,rfl⟩⟩

end RaftNode

namespace Cluster

/-- The members whose comparison of logs lets a bid of `a` pass. -/
def supporters (C : ClusterConfig) (s : Cluster) (a : MemberId) : Finset MemberId :=
  C.members.toFinset.filter fun m => RaftNode.upToDateLog (s.node m).logs
    ((s.node a).produceRequestVoteRequest (C.cfg a)) = true

theorem mem_supporters {C : ClusterConfig} {s : Cluster} {a m : MemberId} :
    m ∈ supporters C s a ↔ m ∈ C.members ∧ RaftNode.upToDateLog (s.node m).logs
      ((s.node a).produceRequestVoteRequest (C.cfg a)) = true := by
  simp [supporters]

/-- A member supports itself. -/
theorem self_mem_supporters {C : ClusterConfig} {s : Cluster} {a : MemberId}
    (ha : a ∈ C.members) : a ∈ supporters C s a :=
  mem_supporters.mpr ⟨ha,by simp [RaftNode.upToDateLog, RaftNode.produceRequestVoteRequest]⟩

/-- Member `a` leads, and no member has a larger term. -/
structure Leads (C : ClusterConfig) (s : Cluster) (a : MemberId) : Prop where
  role : (s.node a).role = .leader
  term : ∀ m ∈ C.members, (s.node m).currentTerm ≤ (s.node a).currentTerm

/-- The steps of a campaign meet the condition. -/
structure Admits (ok : Cluster → Label → Prop) : Prop where
  timeout : ∀ s m, ok s (.electionTimeout m)
  request : ∀ {s k p request}, s.network[k]? = some p → p.body = .requestVote request →
    (s.node p.receiver).currentTerm < request.term → ok s (delivery k)
  reply : ∀ {s k p response}, s.network[k]? = some p → p.body = .requestVoteReply response →
    ok s (delivery k)

section Steps
variable [Protobuf] {C : ClusterConfig} {s : Cluster}

/-- The delivery of a packet to a node whose step is defined. -/
theorem step_delivery {k : ℕ} {p : Packet} {n' : RaftNode} {events : List Event}
    (hk : s.network[k]? = some p)
    (hn : (s.node p.receiver).step (C.cfg p.receiver) .ok (.receive p.sender p.body []) =
      some (n',events)) :
    ∃ s', s.step C (delivery k) = some s' ∧ s'.node = Function.update s.node p.receiver n' ∧
      s'.network = s.network.eraseIdx k ++ events.filterMap (packetOf p.receiver) := by
  have hstep : s.step C (delivery k) =
      s.act C p.receiver .ok (.receive p.sender p.body []) (s.network.eraseIdx k) := by
    simp only [step, delivery, hk]
    rfl
  exact ⟨_,hstep.trans (act_eq hn _),rfl,rfl⟩

omit [Protobuf] in
/-- Delivering one packet leaves the others in flight. -/
theorem mem_eraseIdx {k : ℕ} {p q : Packet} (hk : s.network[k]? = some p) (hq : q ∈ s.network)
    (hne : q ≠ p) : q ∈ s.network.eraseIdx k := by
  obtain ⟨hlt,rfl⟩ := List.getElem?_eq_some_iff.mp hk
  have hperm := (List.getElem_cons_eraseIdx_perm hlt).mem_iff (a := q)
  exact (List.mem_cons.mp (hperm.mpr hq)).resolve_left hne

/-- A member that is no leader starts an election of the next term and asks all the others. -/
theorem step_electionTimeout {a : MemberId} (ha : a ∈ C.members)
    (hrole : (s.node a).role ≠ .leader) :
    ∃ s', s.step C (.electionTimeout a) = some s' ∧
      s'.node = Function.update s.node a ((s.node a).startElection (C.cfg a)) ∧
      ∀ j ∈ C.members, j ≠ a → ⟨a,j,.requestVote
        (((s.node a).startElection (C.cfg a)).produceRequestVoteRequest (C.cfg a))⟩ ∈
          s'.network := by
  refine ⟨⟨_,s.network ++ ((s.node a).startElectionTimeout (C.cfg a)).2.filterMap (packetOf a),
    s.history ++ ((s.node a).startElectionTimeout (C.cfg a)).2.map (a,·)⟩,?_,rfl,?_⟩
  · simp only [step, if_pos ha, act, RaftNode.step, RaftNode.startElectionTimeout, if_neg hrole,
      Option.bind_eq_bind, Option.bind_some]
    rfl
  · intro j hj hne
    refine List.mem_append_right _ (List.mem_filterMap.mpr ⟨.sent j _,?_,rfl⟩)
    rw [RaftNode.startElectionTimeout, if_neg hrole]
    exact List.mem_cons_of_mem _ (mem_broadcast.mpr ⟨j,hj,hne,rfl⟩)

end Steps

section Campaign
variable [Protobuf] {C : ClusterConfig} {ok : Cluster → Label → Prop} {s : Cluster} {a : MemberId}

/-- However often a member starts elections: the last one asks all the others, and nobody else has
moved. -/
theorem raise_term (hok : Admits ok) (ha : a ∈ C.members) (hrole : (s.node a).role ≠ .leader)
    (N : ℕ) : ∃ ls t, Generic.Run (step C) ok s ls t ∧ (t.node a).role = .candidate ∧
      (t.node a).votes = 1 ∧ (t.node a).logs = (s.node a).logs ∧
      (t.node a).currentTerm = (s.node a).currentTerm + N + 1 ∧
      (∀ j, j ≠ a → t.node j = s.node j) ∧
      ∀ j ∈ C.members, j ≠ a →
        ⟨a,j,.requestVote ((t.node a).produceRequestVoteRequest (C.cfg a))⟩ ∈ t.network := by
  induction N with
  | zero =>
    obtain ⟨t,ht,hnode,hsent⟩ := step_electionTimeout ha hrole
    refine ⟨_,t,Generic.Run.nil.snoc (hok.timeout s a) ht,?_⟩
    rw [hnode, Function.update_self]
    exact ⟨rfl,rfl,rfl,rfl,fun j hj => Function.update_of_ne hj _ _,hsent⟩
  | succ N ih =>
    obtain ⟨ls,t,hrun,hcand,-,hlogs,hterm,hothers,-⟩ := ih
    obtain ⟨u,hu,hnode,hsent⟩ := step_electionTimeout (s := t) ha (by simp [hcand])
    refine ⟨_,u,hrun.snoc (hok.timeout t a) hu,?_⟩
    rw [hnode, Function.update_self]
    refine ⟨rfl,rfl,hlogs,?_,fun j hj => ?_,hsent⟩
    · change (t.node a).currentTerm + 1 = _
      omega
    · rw [Function.update_of_ne hj, hothers j hj]

/-- A leader that some member's term exceeds is deposed by the election this member starts. -/
theorem exists_deposed (hok : Admits ok) {b : MemberId} (ha : a ∈ C.members) (hb : b ∈ C.members)
    (hrole : (s.node b).role ≠ .leader)
    (hlt : (s.node a).currentTerm < (s.node b).currentTerm) :
    ∃ ls t, Generic.Run (step C) ok s ls t ∧ (t.node a).role = .follower ∧
      ∀ m, (t.node m).logs.entries = (s.node m).logs.entries := by
  have hne : a ≠ b := fun heq => lt_irrefl _ (heq ▸ hlt)
  obtain ⟨t,ht,hnode,hsent⟩ := step_electionTimeout hb hrole
  obtain ⟨k,hk⟩ := List.mem_iff_getElem?.mp (hsent a ha hne)
  have hterm : (t.node a).currentTerm < (s.node b).currentTerm + 1 := by
    rw [hnode, Function.update_of_ne hne]
    exact hlt.trans (Nat.lt_succ_self _)
  obtain ⟨n',events,hn,hrole',hlog⟩ := @RaftNode.step_yields _ (C.cfg a) (t.node a) .ok b
    (((s.node b).startElection (C.cfg b)).produceRequestVoteRequest (C.cfg b)) [] hterm
  obtain ⟨u,hu,hnode',-⟩ := step_delivery hk hn
  refine ⟨_,u,(Generic.Run.nil.snoc (hok.timeout s b) ht).snoc (hok.request hk rfl hterm) hu,?_,
    fun m => ?_⟩
  · rw [hnode', Function.update_self]
    exact hrole'
  · by_cases hma : m = a
    · rw [hma, hnode', Function.update_self, hlog, hnode, Function.update_of_ne hne]
    · rw [hnode', Function.update_of_ne hma, hnode]
      by_cases hmb : m = b
      · rw [hmb, Function.update_self]
        rfl
      · rw [Function.update_of_ne hmb]

/-- A campaign under way: `a` waits for votes, and what it has with the votes of `js`, who are
asked and will grant, is a majority. -/
structure Campaign (C : ClusterConfig) (s : Cluster) (a : MemberId) (bid : RequestVoteRequest)
    (js : List MemberId) : Prop where
  role : (s.node a).role = .candidate
  term : (s.node a).currentTerm = bid.term
  waiting : (s.node a).votes ≤ C.members.length/2
  enough : C.members.length/2 < (s.node a).votes + js.length
  le : ∀ m ∈ C.members, (s.node m).currentTerm ≤ bid.term
  distinct : js.Nodup
  asked : ∀ j ∈ js, j ≠ a ∧ (s.node j).currentTerm < bid.term ∧
    RaftNode.upToDateLog (s.node j).logs bid = true ∧ ⟨a,j,.requestVote bid⟩ ∈ s.network

/-- The vote of `j` for a bid. -/
def granted (C : ClusterConfig) (bid : RequestVoteRequest) (j : MemberId) : RequestVoteResponse :=
  ⟨⟨C.clusterId,j,bid.term⟩,true⟩

namespace Campaign
variable {bid : RequestVoteRequest} {j : MemberId} {js : List MemberId}

/-- The next member that is asked grants. -/
theorem grant (hok : Admits ok) (h : Campaign C s a bid (j :: js)) :
    ∃ k t p, ok s (delivery k) ∧ s.step C (delivery k) = some t ∧
      t.node = Function.update s.node j ((s.node j).lowered bid.term p) ∧
      ⟨j,a,.requestVoteReply (granted C bid j)⟩ ∈ t.network ∧
      ∀ q ∈ s.network, q ≠ ⟨a,j,.requestVote bid⟩ → q ∈ t.network := by
  obtain ⟨-,hterm,hlog,hmem⟩ := h.asked j List.mem_cons_self
  obtain ⟨k,hk⟩ := List.mem_iff_getElem?.mp hmem
  obtain ⟨p,hp⟩ := @RaftNode.step_grants _ (C.cfg j) (s.node j) .ok a bid [] hterm hlog
  obtain ⟨t,ht,hnode,hnet⟩ := step_delivery hk hp
  refine ⟨k,t,p,hok.request hk rfl hterm,ht,hnode,?_,fun q hq hne => ?_⟩
  · rw [hnet]
    exact List.mem_append_right _ List.mem_cons_self
  · rw [hnet]
    exact List.mem_append_left _ (mem_eraseIdx hk hq hne)

/-- The candidate takes the vote of `j`: it leads, or the campaign goes on with the others. -/
theorem count (hok : Admits ok) {t : Cluster} {p : Persister}
    (h : Campaign C s a bid (j :: js))
    (hnode : t.node = Function.update s.node j ((s.node j).lowered bid.term p))
    (hreply : ⟨j,a,.requestVoteReply (granted C bid j)⟩ ∈ t.network)
    (hkept : ∀ q ∈ s.network, q ≠ ⟨a,j,.requestVote bid⟩ → q ∈ t.network) :
    ∃ k u, ok t (delivery k) ∧ t.step C (delivery k) = some u ∧
      (Leads C u a ∨ Campaign C u a bid js) := by
  obtain ⟨hja,-⟩ := h.asked j List.mem_cons_self
  have ha : t.node a = s.node a := by rw [hnode, Function.update_of_ne hja.symm]
  obtain ⟨k,hk⟩ := List.mem_iff_getElem?.mp hreply
  obtain ⟨n',events,hn,hterm,hwin,hwait⟩ := @RaftNode.step_counts _ (C.cfg a) (t.node a) .ok j
    (granted C bid j) [] (by rw [ha]; exact h.term.symm) (by rw [ha]; exact h.role) rfl
  rw [ha] at hterm hwin hwait
  rw [C.peerCount_cfg] at hwin hwait
  obtain ⟨u,hu,hnode',hnet⟩ := step_delivery hk hn
  have hself : u.node a = n' := by rw [hnode', Function.update_self]
  have hle : ∀ m ∈ C.members, (u.node m).currentTerm ≤ bid.term := by
    intro m hm
    by_cases hma : m = a
    · rw [hma, hself, hterm, h.term]
    · rw [hnode', Function.update_of_ne hma, hnode]
      by_cases hmj : m = j
      · rw [hmj, Function.update_self]
        rfl
      · rw [Function.update_of_ne hmj]
        exact h.le m hm
  refine ⟨k,u,hok.reply hk rfl,hu,?_⟩
  by_cases hmajority : C.members.length/2 < (s.node a).votes + 1
  · refine Or.inl ⟨hself ▸ hwin hmajority,fun m hm => ?_⟩
    rw [hself, hterm, h.term]
    exact hle m hm
  · obtain ⟨hrole,hvotes⟩ := hwait (Nat.le_of_not_lt hmajority)
    have henough := h.enough
    rw [List.length_cons] at henough
    refine Or.inr ⟨hself ▸ hrole,hself ▸ hterm.trans h.term,?_,?_,hle,h.distinct.of_cons,?_⟩
    · rw [hself, hvotes]
      exact Nat.le_of_not_lt hmajority
    · rw [hself, hvotes]
      omega
    · intro i hi
      obtain ⟨hia,hlt,hlog,hmem⟩ := h.asked i (List.mem_cons_of_mem _ hi)
      have hij : i ≠ j := fun heq => (List.nodup_cons.mp h.distinct).1 (heq ▸ hi)
      have hsame : u.node i = s.node i := by
        rw [hnode', Function.update_of_ne hia, hnode, Function.update_of_ne hij]
      rw [hsame]
      refine ⟨hia,hlt,hlog,?_⟩
      rw [hnet]
      refine List.mem_append_left _ (mem_eraseIdx hk (hkept _ hmem ?_) ?_)
      · simp [hij]
      · simp

/-- A campaign under way ends with a leader. -/
theorem won (hok : Admits ok) (h : Campaign C s a bid js) :
    ∃ ls t, Generic.Run (step C) ok s ls t ∧ Leads C t a := by
  induction js generalizing s with
  | nil =>
    have hwaiting := h.waiting
    have henough := h.enough
    rw [List.length_nil] at henough
    omega
  | cons j js ih =>
    obtain ⟨k,t,p,hk,ht,hnode,hreply,hkept⟩ := h.grant hok
    obtain ⟨k',u,hk',hu,hlead | hcampaign⟩ := h.count hok hnode hreply hkept
    · exact ⟨_,u,(Generic.Run.nil.snoc hk ht).snoc hk' hu,hlead⟩
    · obtain ⟨ls,v,hv,hlead⟩ := ih hcampaign
      exact ⟨_,v,.cons hk ht (.cons hk' hu hv),hlead⟩

end Campaign

/-- A member of a cluster of several that a majority supports can become leader of a term that no
member exceeds. -/
theorem exists_leads (hok : Admits ok) (hlen : 2 ≤ C.members.length) (ha : a ∈ C.members)
    (hrole : (s.node a).role ≠ .leader)
    (hmajority : Majority C.members.toFinset (supporters C s a)) :
    ∃ ls t, Generic.Run (step C) ok s ls t ∧ Leads C t a := by
  obtain ⟨ls,t,hrun,hcand,hvotes,hlogs,hterm,hothers,hasked⟩ := raise_term hok ha hrole
    (C.members.toFinset.sup fun m => (s.node m).currentTerm)
  have hlt : ∀ m ∈ C.members, (s.node m).currentTerm < (t.node a).currentTerm := by
    intro m hm
    have hle : (s.node m).currentTerm ≤
        C.members.toFinset.sup fun m => (s.node m).currentTerm :=
      Finset.le_sup (f := fun m => (s.node m).currentTerm) (List.mem_toFinset.mpr hm)
    omega
  have hcard := hmajority.2
  rw [C.card_members, ← Finset.card_erase_add_one (self_mem_supporters ha)] at hcard
  have hcampaign : Campaign C t a ((t.node a).produceRequestVoteRequest (C.cfg a))
      ((supporters C s a).erase a).toList := by
    refine ⟨hcand,rfl,by omega,by rw [Finset.length_toList]; omega,fun m hm => ?_,
      Finset.nodup_toList _,fun j hj => ?_⟩
    · by_cases hma : m = a
      · rw [hma]
        rfl
      · rw [hothers m hma]
        exact (hlt m hm).le
    · obtain ⟨hja,hj⟩ := Finset.mem_erase.mp (Finset.mem_toList.mp hj)
      obtain ⟨hjm,hlog⟩ := mem_supporters.mp hj
      rw [hothers j hja]
      refine ⟨hja,hlt j hjm,?_,hasked j hjm hja⟩
      rw [RaftNode.produceRequestVoteRequest, hlogs]
      exact hlog
  obtain ⟨us,u,hu,hlead⟩ := hcampaign.won hok
  exact ⟨_,u,hrun.append hu,hlead⟩

end Campaign
end Cluster
end Foskv.Raft
