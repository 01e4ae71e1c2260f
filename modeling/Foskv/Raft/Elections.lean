import Foskv.Generic.Majority
import Foskv.Raft.ClusterSteps
import Foskv.Rpc.Proto3

/-! Elections: who stands behind the bare counter of votes, and when a term has one leader. -/
namespace Foskv.Raft

theorem ClusterConfig.card_members (C : ClusterConfig) :
    C.members.toFinset.card = C.members.length :=
  List.toFinset_card_of_nodup C.distinct

theorem ClusterConfig.peerCount_cfg (C : ClusterConfig) (m : MemberId) :
    (C.cfg m).peerCount = C.members.length := by
  simp [RaftConfig.peerCount, ClusterConfig.cfg, ClusterConfig.members]

/-- Member `m` has voted for `candidate` in a term. -/
def VotedFor (history : List (MemberId × Event)) (m : MemberId) (term : ℕ)
    (candidate : MemberId) : Prop :=
  ∃ log, (m,.voted term candidate log) ∈ history

theorem VotedFor.mono {h h' : List (MemberId × Event)} (hsub : h ⊆ h') {m : MemberId} {term : ℕ}
    {candidate : MemberId} (hv : VotedFor h m term candidate) : VotedFor h' m term candidate :=
  hv.imp fun _ hl => hsub hl

/-- Every member of `K` has voted for `a` in this term: `a` on its own, the others by a
granting response. -/
structure Backed (C : ClusterConfig) (history : List (MemberId × Event)) (a : MemberId)
    (term : ℕ) (K : Finset MemberId) : Prop where
  members : K ⊆ C.members.toFinset
  self : a ∈ K
  voted : ∀ m ∈ K, VotedFor history m term a
  answered : ∀ m ∈ K, m ≠ a →
    (m,.sent a (.requestVoteReply ⟨⟨C.clusterId,m,term⟩,true⟩)) ∈ history

theorem Backed.mono {C : ClusterConfig} {h h' : List (MemberId × Event)} (hsub : h ⊆ h')
    {a : MemberId} {term : ℕ} {K : Finset MemberId} (hb : Backed C h a term K) :
    Backed C h' a term K where
  members := hb.members
  self := hb.self
  voted m hm := (hb.voted m hm).mono hsub
  answered m hm hne := hsub (hb.answered m hm hne)

/-- A packet that carries the vote of `m` for `a` in this term, or still asks for it. -/
def ballot (a m : MemberId) (term : ℕ) (p : Packet) : Bool :=
  match p.body with
  | .requestVote request => p.sender = a ∧ p.receiver = m ∧ request.term = term
  | .requestVoteReply response =>
    response.voteGranted ∧ p.sender = m ∧ p.receiver = a ∧ response.header.term = term
  | _ => false

namespace Cluster

/-- How many ballots between `a` and `m` are in flight. -/
def ballots (s : Cluster) (a m : MemberId) (term : ℕ) : ℕ := s.network.countP (ballot a m term)

section Ballots
variable [Protobuf] {C : ClusterConfig} {s s' : Cluster} {l : Label} {m₀ : MemberId}
  {input : Input} {n' : RaftNode} {events : List Event} {rest : List Packet}

/-- New ballots come from a new election of `a`, or answer a request of `a`. -/
theorem Acts.new_ballot (h : Acts C s l m₀ input n' events rest s') {a m : MemberId} {term : ℕ}
    {p : Packet} (hp : p ∈ events.filterMap (packetOf m₀)) (hb : ballot a m term p = true) :
    (input = .electionTimeout ∧ m₀ = a ∧ n' = (s.node a).startElection (C.cfg a) ∧
      term = (s.node a).currentTerm + 1) ∨
    ∃ request live, input = .receive a (.requestVote request) live ∧ m₀ = m ∧
      request.term = term := by
  obtain ⟨e,he,hp⟩ := List.mem_filterMap.mp hp
  cases e <;> simp only [packetOf, Option.some.injEq, reduceCtorEq] at hp
  subst hp
  have ho := h.origin he
  cases ho with
  | requestVote _ _ _ =>
    simp only [ballot, Bool.decide_and, Bool.and_eq_true, decide_eq_true_eq] at hb
    obtain ⟨rfl,-,hterm⟩ := hb
    exact Or.inl ⟨rfl,rfl,rfl,hterm.symm⟩
  | @voteReply sender request live n' granted hgrant =>
    simp only [ballot, Bool.decide_and, Bool.and_eq_true, decide_eq_true_eq,
      Bool.decide_eq_true] at hb
    obtain ⟨hg,rfl,rfl,hterm⟩ := hb
    obtain ⟨hobs,-,-⟩ := hgrant hg
    exact Or.inr ⟨request,live,rfl,rfl,hobs.le.2.symm.trans hterm⟩
  | reissued _ _ _ _ => simp [ballot] at hb
  | heartbeat _ _ _ => simp [ballot] at hb
  | replicated _ _ _ _ _ => simp [ballot] at hb
  | appendReply _ => simp [ballot] at hb

omit [Protobuf] in
/-- A broadcast puts at most one ballot for each pair in flight. -/
theorem countP_broadcast_le (C : ClusterConfig) (a m m₀ : MemberId) (term : ℕ) (body : Body)
    (hbody : ∀ response, body ≠ .requestVoteReply response) :
    (((C.cfg m₀).broadcast body).filterMap (packetOf m₀)).countP (ballot a m term) ≤ 1 := by
  have hmap : ((C.cfg m₀).broadcast body).filterMap (packetOf m₀) =
      ((C.cfg m₀).peers.filter (fun peer => peer.memberId ≠ m₀)).map
        (fun peer => ⟨m₀,peer.memberId,body⟩) := by
    rw [RaftConfig.broadcast, List.filterMap_map]
    exact congrFun List.filterMap_eq_map _
  rw [hmap, List.countP_map]
  calc ((C.cfg m₀).peers.filter (fun peer => peer.memberId ≠ m₀)).countP
        (ballot a m term ∘ fun peer => ⟨m₀,peer.memberId,body⟩)
      ≤ C.peers.countP (ballot a m term ∘ fun peer => ⟨m₀,peer.memberId,body⟩) :=
        (List.filter_sublist).countP_le
    _ ≤ C.peers.countP (fun peer => peer.memberId = m) := by
        refine List.countP_mono_left fun peer _ hb => ?_
        simp only [Function.comp_apply, ballot] at hb
        split at hb
        · simp_all
        · exact absurd rfl (hbody _)
        · simp at hb
    _ = (C.peers.map Peer.memberId).count m := by
        rw [List.count, List.countP_map]
        rfl
    _ ≤ 1 := List.nodup_iff_count_le_one.mp C.distinct m

/-- A step adds at most one ballot for each pair. -/
theorem Acts.new_ballots_le (h : Acts C s l m₀ input n' events rest s') (a m : MemberId)
    (term : ℕ) : (events.filterMap (packetOf m₀)).countP (ballot a m term) ≤ 1 := by
  by_cases hnone : (events.filterMap (packetOf m₀)).countP (ballot a m term) = 0
  · omega
  obtain ⟨p,hp,hb⟩ := List.countP_pos_iff.mp (Nat.pos_of_ne_zero hnone)
  have ht := h.transition
  obtain ⟨rfl,rfl,-,-⟩ | ⟨request,live,rfl,rfl,-⟩ := h.new_ballot hp hb
  · cases ht with
    | idle hevents =>
      obtain rfl | ⟨_,_,_,rfl⟩ := hevents <;> exact Nat.zero_le 1
    | election _ => exact countP_broadcast_le C m₀ m m₀ term _ (by simp)
  · cases ht with
    | idle hevents =>
      obtain rfl | ⟨_,_,_,rfl⟩ := hevents <;> exact Nat.zero_le 1
    | voteStale _ => exact List.countP_le_length
    | voteDenied _ _ => exact List.countP_le_length
    | voteGranted _ _ _ => exact List.countP_le_length
    | lowered _ hreply => obtain ⟨r,hr⟩ | ⟨c,r,hr⟩ := hreply <;> cases hr

theorem Acts.ballots_eq (h : Acts C s l m₀ input n' events rest s') (a m : MemberId)
    (term : ℕ) : s'.ballots a m term = rest.countP (ballot a m term) +
      (events.filterMap (packetOf m₀)).countP (ballot a m term) := by
  rw [ballots, h.network, List.countP_append]

theorem Acts.rest_countP_le (h : Acts C s l m₀ input n' events rest s') (f : Packet → Bool) :
    rest.countP f ≤ s.network.countP f := by
  cases h.source with
  | outside _ _ => exact le_rfl
  | delivered _ _ hnet =>
    rw [hnet.countP_eq]
    exact (List.sublist_cons_self _ _).countP_le

/-- Only an election of `a` in this very term adds ballots of `a`. -/
theorem Acts.ballots_le (h : Acts C s l m₀ input n' events rest s') {a : MemberId} (m : MemberId)
    {term : ℕ} (hno : ¬(m₀ = a ∧ (s.node a).currentTerm < n'.currentTerm ∧
      n'.currentTerm = term)) : s'.ballots a m term ≤ s.ballots a m term := by
  have hrest := h.rest_countP_le (ballot a m term)
  by_cases hnone : (events.filterMap (packetOf m₀)).countP (ballot a m term) = 0
  · rw [h.ballots_eq, hnone]
    exact hrest
  obtain ⟨p,hp,hb⟩ := List.countP_pos_iff.mp (Nat.pos_of_ne_zero hnone)
  obtain ⟨-,rfl,hn,rfl⟩ | ⟨request,live,hi,rfl,rfl⟩ := h.new_ballot hp hb
  · exact absurd ⟨rfl,by rw [hn]; exact Nat.lt_succ_self _,by rw [hn]; rfl⟩ hno
  · have hold : s.ballots a m₀ request.term = rest.countP (ballot a m₀ request.term) + 1 := by
      rw [ballots, (h.packet hi).2.countP_eq, List.countP_cons_of_pos]
      simp [ballot]
    have hnew := h.new_ballots_le a m₀ request.term
    rw [h.ballots_eq]
    omega

/-- A counted vote is a ballot taken out of flight. -/
theorem Acts.ballots_counted (h : Acts C s l m₀ input n' events rest s') {sender : MemberId}
    {response : RequestVoteResponse} {live : List ℕ}
    (hi : input = .receive sender (.requestVoteReply response) live)
    (hgrant : response.voteGranted = true) :
    s'.ballots m₀ sender response.header.term + 1 ≤ s.ballots m₀ sender response.header.term := by
  have hold : s.ballots m₀ sender response.header.term =
      rest.countP (ballot m₀ sender response.header.term) + 1 := by
    rw [ballots, (h.packet hi).2.countP_eq, List.countP_cons_of_pos]
    simp [ballot, hgrant]
  have hnew : (events.filterMap (packetOf m₀)).countP
      (ballot m₀ sender response.header.term) = 0 := by
    refine List.countP_eq_zero.mpr fun p hp hb => ?_
    obtain ⟨hi',-,-,-⟩ | ⟨_,_,hi',-,-⟩ := h.new_ballot hp hb
    · rw [hi] at hi'
      cases hi'
    · rw [hi] at hi'
      cases hi'
  rw [h.ballots_eq]
  omega

end Ballots

/-- What ties the counters of the candidates, the votes given and the votes in flight. -/
structure Electoral (C : ClusterConfig) (s : Cluster) : Prop where
  addressed : Addressed C s
  voted_le : ∀ {m term c log}, (m,.voted term c log) ∈ s.history → term ≤ (s.node m).currentTerm
  granted : ∀ p ∈ s.network, ∀ response, p.body = .requestVoteReply response →
    response.voteGranted = true → VotedFor s.history p.sender response.header.term p.receiver ∧
      (p.sender,.sent p.receiver (.requestVoteReply response)) ∈ s.history ∧
      response.header.clusterId = C.clusterId
  ballots_le : ∀ a m term, s.ballots a m term ≤ 1
  ballots_future : ∀ a m term, (s.node a).currentTerm < term → s.ballots a m term = 0
  candidate : ∀ a, (s.node a).role = .candidate → ∃ K,
    Backed C s.history a (s.node a).currentTerm K ∧ (s.node a).votes = K.card ∧
    ∀ m ∈ K, s.ballots a m (s.node a).currentTerm = 0
  leader : ∀ a, (s.node a).role = .leader → ∃ log,
    (a,.becameLeader (s.node a).currentTerm log) ∈ s.history
  elected : ∀ {a term log}, (a,.becameLeader term log) ∈ s.history →
    (∃ Q, Backed C s.history a term Q ∧ Generic.Majority C.members.toFinset Q) ∧
    term ≤ (s.node a).currentTerm ∧
    (term = (s.node a).currentTerm → (s.node a).role = .leader)

namespace Electoral
variable {C : ClusterConfig} {s s' : Cluster} {l : Label}

theorem init (kv : MemberId → Storage) : Electoral C (Cluster.init kv) where
  addressed := .init kv
  voted_le := by simp [Cluster.init]
  granted := by simp [Cluster.init]
  ballots_le := by simp [Cluster.init, ballots]
  ballots_future := by simp [Cluster.init, ballots]
  candidate a h := by cases h
  leader a h := by cases h
  elected := by simp [Cluster.init]

theorem lose (hs : Electoral C s) (h : Loses s s') : Electoral C s' where
  addressed := hs.addressed.lose h
  voted_le := by
    rw [h.node, h.history]
    exact hs.voted_le
  granted p hp := by
    rw [h.history]
    exact hs.granted p (h.network.subset hp)
  ballots_le a m term := (h.network.countP_le).trans (hs.ballots_le a m term)
  ballots_future a m term ht := by
    rw [h.node] at ht
    exact Nat.eq_zero_of_le_zero ((h.network.countP_le).trans (hs.ballots_future a m term ht).le)
  candidate a := by
    rw [h.node, h.history]
    intro ha
    obtain ⟨K,hK,hv,hb⟩ := hs.candidate a ha
    exact ⟨K,hK,hv,fun m hm => Nat.eq_zero_of_le_zero
      ((h.network.countP_le).trans (hb m hm).le)⟩
  leader a := by
    rw [h.node, h.history]
    exact hs.leader a
  elected := by
    rw [h.node, h.history]
    exact hs.elected

section Act
variable [Protobuf] {m₀ : MemberId} {input : Input} {n' : RaftNode} {events : List Event}
  {rest : List Packet}

/-- A granting response is sent together with the vote it stands for. -/
theorem granted_voted (hs : Electoral C s) (h : Acts C s l m₀ input n' events rest s')
    {receiver : MemberId} {response : RequestVoteResponse}
    (he : .sent receiver (.requestVoteReply response) ∈ events)
    (hg : response.voteGranted = true) :
    .voted response.header.term receiver (s.node m₀).logs.entries ∈ events ∧
      response.header.clusterId = C.clusterId := by
  have ho := h.origin he
  have ht := h.transition
  cases ho with
  | voteReply _ =>
    have hauthor := hs.addressed.author _ (h.packet_mem rfl)
    cases ht with
    | idle hevents => obtain rfl | ⟨_,_,_,rfl⟩ := hevents <;> simp at he
    | voteStale _ => simp_all [RaftNode.produceRequestVoteResponse]
    | voteDenied _ _ => simp_all [RaftNode.produceRequestVoteResponse]
    | voteGranted _ _ _ =>
      rw [← show _ = receiver from hauthor]
      exact ⟨List.mem_cons_self,rfl⟩
    | lowered _ hreply => obtain ⟨r,hr⟩ | ⟨c,r,hr⟩ := hreply <;> cases hr

/-- A granting response of the own term comes from a member not counted so far. -/
theorem count_vote (hs : Electoral C s) (h : Acts C s l m₀ input n' events rest s')
    {K : Finset MemberId} (hK : Backed C s.history m₀ (s.node m₀).currentTerm K)
    (hb : ∀ m ∈ K, s.ballots m₀ m (s.node m₀).currentTerm = 0) {sender : MemberId}
    {response : RequestVoteResponse} {live : List ℕ}
    (hi : input = .receive sender (.requestVoteReply response) live)
    (hterm : response.header.term = (s.node m₀).currentTerm)
    (hgrant : response.voteGranted = true) :
    Backed C s.history m₀ (s.node m₀).currentTerm (insert sender K) ∧ sender ∉ K := by
  have hp := h.packet_mem hi
  obtain ⟨hvote,hsent,hcluster⟩ := hs.granted _ hp response rfl hgrant
  have hauthor := hs.addressed.author _ hp
  have hmem := (hs.addressed.members _ hp).1
  rw [hterm] at hvote
  refine ⟨⟨?_,Finset.mem_insert_of_mem hK.self,?_,?_⟩,?_⟩
  · exact Finset.insert_subset (by simpa using hmem) hK.members
  · intro m hm
    obtain rfl | hm := Finset.mem_insert.mp hm
    · exact hvote
    · exact hK.voted m hm
  · intro m hm hne
    obtain rfl | hm := Finset.mem_insert.mp hm
    · rw [← hterm, ← hcluster, ← hgrant]
      rw [show m = response.header.memberId from hauthor.symm] at hsent ⊢
      exact hsent
    · exact hK.answered m hm hne
  · intro hm
    have hcounted := h.ballots_counted hi hgrant
    rw [hterm, hb sender hm] at hcounted
    omega

theorem candidate_act (hs : Electoral C s) (h : Acts C s l m₀ input n' events rest s')
    (hrole : n'.role = .candidate) : ∃ K, Backed C s'.history m₀ n'.currentTerm K ∧
      n'.votes = K.card ∧ ∀ m ∈ K, s'.ballots m₀ m n'.currentTerm = 0 := by
  have hsub := h.history_subset
  have hst := h.transition.standing
  cases hst with
  | kept same =>
    obtain ⟨K,hK,hv,hb⟩ := hs.candidate m₀ (same.role ▸ hrole)
    rw [same.term, same.votes]
    refine ⟨K,hK.mono hsub,hv,fun m hm => Nat.eq_zero_of_le_zero ?_⟩
    rw [← hb m hm]
    exact h.ballots_le m (by rw [same.term]; omega)
  | raised _ _ role _ _ => simp [role] at hrole
  | started hnot hevent =>
    have hm₀ : m₀ ∈ C.members := by
      cases h.source with
      | outside hm _ => exact hm
    refine ⟨{m₀},⟨by simpa using hm₀,by simp,?_,by simp⟩,rfl,?_⟩
    · intro m hm
      obtain rfl := Finset.mem_singleton.mp hm
      exact ⟨_,h.mem_history.mpr (Or.inr ⟨rfl,hevent⟩)⟩
    · intro m hm
      obtain rfl := Finset.mem_singleton.mp hm
      refine List.countP_eq_zero.mpr fun p hp hb => ?_
      have hne := (hs.addressed.act h).other p hp
      simp only [ballot] at hb
      split at hb <;> simp_all
  | @counted sender response live _ hterm hnot hgrant =>
    obtain ⟨K,hK,hv,hb⟩ := hs.candidate m₀ hrole
    obtain ⟨hK',hnew⟩ := hs.count_vote h hK hb rfl hterm hgrant
    refine ⟨insert sender K,hK'.mono hsub,?_,fun m hm => Nat.eq_zero_of_le_zero ?_⟩
    · rw [Finset.card_insert_of_notMem hnew, ← hv]
    · have hcounted := h.ballots_counted rfl hgrant
      rw [hterm] at hcounted
      have hle := hs.ballots_le m₀ sender (s.node m₀).currentTerm
      obtain rfl | hm := Finset.mem_insert.mp hm
      · change s'.ballots m₀ m (s.node m₀).currentTerm ≤ 0
        omega
      · rw [← hb m hm]
        exact h.ballots_le m (by simp)
  | elected _ _ _ _ _ => cases hrole

theorem elected_act (hs : Electoral C s) (h : Acts C s l m₀ input n' events rest s') {term : ℕ}
    {log : List LogEntry} (he : .becameLeader term log ∈ events) :
    (∃ Q, Backed C s'.history m₀ term Q ∧ Generic.Majority C.members.toFinset Q) ∧
      term = n'.currentTerm ∧ n'.role = .leader := by
  have ho := h.origin he
  cases ho with
  | @becameLeader sender response live p hterm hrole hgrant hmajority =>
    obtain ⟨K,hK,hv,hb⟩ := hs.candidate m₀ hrole
    obtain ⟨hK',hnew⟩ := hs.count_vote h hK hb rfl hterm hgrant
    refine ⟨⟨insert sender K,hK'.mono h.history_subset,hK'.members,?_⟩,rfl,rfl⟩
    rw [Finset.card_insert_of_notMem hnew, ← hv, C.card_members, ← C.peerCount_cfg m₀]
    exact hmajority

theorem act (hs : Electoral C s) (h : Acts C s l m₀ input n' events rest s') :
    Electoral C s' where
  addressed := hs.addressed.act h
  voted_le {m term c log} hv := by
    obtain hv | ⟨rfl,hv⟩ := h.mem_history.mp hv
    · exact (hs.voted_le hv).trans (h.term_le m)
    · rw [h.node_self]
      exact (h.origin hv).voted_term.1.le
  granted p hp response hbody hgrant := by
    obtain hp | ⟨rfl,he⟩ := h.mem_network hp
    · obtain ⟨hv,hsent,hc⟩ := hs.granted p hp response hbody hgrant
      exact ⟨hv.mono h.history_subset,h.history_subset hsent,hc⟩
    · rw [hbody] at he
      obtain ⟨hv,hc⟩ := hs.granted_voted h he hgrant
      exact ⟨⟨_,h.mem_history.mpr (Or.inr ⟨rfl,hv⟩)⟩,h.mem_history.mpr (Or.inr ⟨rfl,he⟩),hc⟩
  ballots_le a m term := by
    by_cases hnew : m₀ = a ∧ (s.node a).currentTerm < n'.currentTerm ∧ n'.currentTerm = term
    · obtain ⟨rfl,hlt,rfl⟩ := hnew
      have hold := hs.ballots_future m₀ m n'.currentTerm hlt
      have hrest := h.rest_countP_le (ballot m₀ m n'.currentTerm)
      have hadd := h.new_ballots_le m₀ m n'.currentTerm
      rw [ballots] at hold
      rw [h.ballots_eq]
      omega
    · exact (h.ballots_le m hnew).trans (hs.ballots_le a m term)
  ballots_future a m term ht := by
    have hle := h.term_le a
    refine Nat.eq_zero_of_le_zero ?_
    rw [← hs.ballots_future a m term (by omega)]
    refine h.ballots_le m ?_
    rintro ⟨rfl,-,rfl⟩
    rw [h.node_self] at ht
    exact lt_irrefl _ ht
  candidate a ha := by
    by_cases hi : a = m₀
    · subst hi
      rw [h.node_self] at ha ⊢
      exact hs.candidate_act h ha
    · rw [h.node_ne hi] at ha ⊢
      obtain ⟨K,hK,hv,hb⟩ := hs.candidate a ha
      refine ⟨K,hK.mono h.history_subset,hv,fun m hm => Nat.eq_zero_of_le_zero ?_⟩
      rw [← hb m hm]
      exact h.ballots_le m (by tauto)
  leader a ha := by
    by_cases hi : a = m₀
    · subst hi
      rw [h.node_self] at ha ⊢
      obtain ⟨hrole,hterm⟩ | hevent := h.transition.leads ha
      · obtain ⟨log,hlog⟩ := hs.leader a hrole
        rw [hterm]
        exact ⟨log,h.history_subset hlog⟩
      · exact ⟨_,h.mem_history.mpr (Or.inr ⟨rfl,hevent⟩)⟩
    · rw [h.node_ne hi] at ha ⊢
      obtain ⟨log,hlog⟩ := hs.leader a ha
      exact ⟨log,h.history_subset hlog⟩
  elected {a term log} he := by
    obtain he | ⟨rfl,he⟩ := h.mem_history.mp he
    · obtain ⟨⟨Q,hQ,hmaj⟩,hle,hrole⟩ := hs.elected he
      refine ⟨⟨Q,hQ.mono h.history_subset,hmaj⟩,hle.trans (h.term_le a),fun ht => ?_⟩
      by_cases hi : a = m₀
      · subst hi
        rw [h.node_self] at ht ⊢
        have hmono := h.transition.term_le
        exact h.transition.stays_leader (hrole (by omega)) (by omega)
      · rw [h.node_ne hi] at ht ⊢
        exact hrole ht
    · rw [h.node_self]
      obtain ⟨hQ,rfl,hl⟩ := hs.elected_act h he
      exact ⟨hQ,le_rfl,fun _ => hl⟩

end Act
end Electoral

theorem Run.electoral [Protobuf] {C : ClusterConfig} {s : Cluster} {ok : Cluster → Label → Prop}
    {kv : MemberId → Storage} {labels : List Label} (h : Cluster.Run C ok kv labels s) :
    Electoral C s :=
  Run.invariant (.init kv) (fun hs hl => hs.lose hl) (fun _ hs _ ha => hs.act ha) h

/-- Whoever became leader of a term was given its vote in this term by a majority of the
members, itself included. -/
theorem leader_has_majority [Protobuf] {C : ClusterConfig} {s : Cluster}
    {kv : MemberId → Storage} {labels : List Label} (h : Cluster.Run C anyStep kv labels s)
    {a : MemberId} {term : ℕ} {log : List LogEntry}
    (he : (a,.becameLeader term log) ∈ s.history) :
    ∃ Q, Backed C s.history a term Q ∧ C.members.length/2 + 1 ≤ Q.card := by
  obtain ⟨⟨Q,hQ,hmaj⟩,-,-⟩ := h.electoral.elected he
  refine ⟨Q,hQ,?_⟩
  rw [← C.card_members]
  exact hmaj.2

section Trio
attribute [local instance] Proto3.protobuf

/-- A cluster of three members. -/
def trio : ClusterConfig := ⟨0,[⟨1,[],8080⟩,⟨2,[],8081⟩,⟨3,[],8082⟩],by decide⟩

/-- The delivery of the packet at place `k`, with no session open. -/
def delivery (k : ℕ) : Label := .deliver k .ok []

/-- A client's request to put a value under the key 1, on session 7. -/
def putting (m : MemberId) (value : UInt8) : Label :=
  .client m .ok .put (Wire.serialize (⟨[1],[value],∅⟩ : Kv.PutRequest)) 7 0

theorem leader_has_majority_trio : ∃ s, Cluster.Run trio anyStep (fun _ => Storage.empty)
    [.electionTimeout 1,delivery 0,delivery 1] s ∧
      ∃ Q, Backed trio s.history 1 1 Q ∧ 2 ≤ Q.card := by
  obtain ⟨s,hs,he⟩ : ∃ s, Cluster.Run trio anyStep (fun _ => Storage.empty)
      [.electionTimeout 1,delivery 0,delivery 1] s ∧
      (1,Event.becameLeader 1 []) ∈ s.history :=
    Generic.Run.of_check (Generic.accepted_of_forall (fun _ _ => trivial) _ _) (by decide)
  exact ⟨s,hs,leader_has_majority hs he⟩

end Trio

/-- The candidates a member has voted for in a term. -/
def votesOf (history : List (MemberId × Event)) (m : MemberId) (term : ℕ) : List MemberId :=
  history.filterMap fun x =>
    match x.2 with
    | .voted t candidate _ => if x.1 = m ∧ t = term then some candidate else none
    | _ => none

theorem mem_votesOf {history : List (MemberId × Event)} {m : MemberId} {term : ℕ}
    {candidate : MemberId} : candidate ∈ votesOf history m term ↔
      VotedFor history m term candidate := by
  simp only [votesOf, List.mem_filterMap, VotedFor]
  constructor
  · rintro ⟨⟨i,e⟩,hx,he⟩
    cases e <;> simp only [Option.ite_none_right_eq_some, Option.some.injEq, reduceCtorEq] at he
    obtain ⟨⟨rfl,rfl⟩,rfl⟩ := he
    exact ⟨_,hx⟩
  · rintro ⟨log,hx⟩
    exact ⟨_,hx,by simp⟩

/-- A vote request of the own term that an empty register lets through comes from the
candidate the node has voted for in this term, if it has voted. -/
def SingleVote (s : Cluster) (p : Packet) : Prop :=
  ∀ request ∈ p.body.voteRequest,
    (s.node p.receiver).currentTerm = request.term → (s.node p.receiver).votedFor = none →
    RaftNode.upToDateLog (s.node p.receiver).logs request = true →
      ∀ candidate ∈ votesOf s.history p.receiver request.term, candidate = request.candidateId

instance (s : Cluster) (p : Packet) : Decidable (SingleVote s p) :=
  inferInstanceAs (Decidable (∀ request ∈ p.body.voteRequest, _ → _ → _ →
    ∀ candidate ∈ votesOf s.history p.receiver request.term, candidate = request.candidateId))

/-- No member gives two votes in a term, and a full register says where the vote went. -/
structure VotesOnce (s : Cluster) : Prop where
  register : ∀ {m c c'}, (s.node m).votedFor = some c →
    VotedFor s.history m (s.node m).currentTerm c' → c' = c
  unique : ∀ {m term c c'}, VotedFor s.history m term c → VotedFor s.history m term c' → c = c'

namespace VotesOnce
variable [Protobuf] {C : ClusterConfig} {s s' : Cluster} {l : Label} {m₀ : MemberId}
  {input : Input} {n' : RaftNode} {events : List Event} {rest : List Packet}

/-- A vote given now agrees with every vote given before in the same term. -/
theorem agrees (hv : VotesOnce s) (hs : Electoral C s) (hok : onDelivery SingleVote s l)
    (h : Acts C s l m₀ input n' events rest s') {term : ℕ} {c c' : MemberId}
    {log : List LogEntry} (hnew : .voted term c log ∈ events)
    (hold : VotedFor s.history m₀ term c') : c = c' := by
  obtain ⟨log',hold'⟩ := hold
  have hle := hs.voted_le hold'
  have ho := h.origin hnew
  cases ho with
  | ownVote _ => omega
  | @voted sender request live n' hobs hfree hlog =>
    obtain ⟨hterm,rfl⟩ | ⟨hlt,-,-⟩ := hobs
    · simp only [RaftNode.canVote, Bool.decide_or, Bool.or_eq_true, decide_eq_true_eq] at hfree
      obtain hnone | hsome := hfree
      · have hcond := hok.apply (h.packet rfl).1 request rfl hterm hnone hlog
        exact (hcond c' (mem_votesOf.mpr ⟨log',hold'⟩)).symm
      · exact (hv.register hsome ⟨log',hterm ▸ hold'⟩).symm
    · omega

theorem act (hv : VotesOnce s) (hs : Electoral C s) (hok : onDelivery SingleVote s l)
    (h : Acts C s l m₀ input n' events rest s') : VotesOnce s' where
  register {m c c'} hc := by
    rintro ⟨log,hvote⟩
    by_cases hm : m = m₀
    · subst hm
      rw [h.node_self] at hc hvote
      obtain hvote | ⟨-,hvote⟩ := h.mem_history.mp hvote
      · have hle := hs.voted_le hvote
        have hst := h.transition.standing
        cases hst with
        | kept same =>
          rw [same.votedFor] at hc
          rw [same.term] at hvote
          exact hv.register hc ⟨log,hvote⟩
        | raised _ _ _ _ votedFor => simp [votedFor] at hc
        | started _ _ =>
          change (s.node m).currentTerm + 1 ≤ _ at hle
          omega
        | counted _ _ _ => exact hv.register hc ⟨log,hvote⟩
        | elected _ _ _ _ _ => cases hc
      · have ho := h.origin hvote
        generalize ht : n'.currentTerm = term at ho
        cases ho with
        | ownVote _ => exact Option.some.inj hc
        | voted _ hfree _ => simpa [RaftNode.canVote, hc, eq_comm] using hfree
    · rw [h.node_ne hm] at hc hvote
      obtain hvote | ⟨rfl,-⟩ := h.mem_history.mp hvote
      · exact hv.register hc ⟨log,hvote⟩
      · exact absurd rfl hm
  unique {m term c c'} := by
    rintro ⟨log,hc⟩ ⟨log',hc'⟩
    obtain hc | ⟨rfl,hc⟩ := h.mem_history.mp hc
    · obtain hc' | ⟨rfl,hc'⟩ := h.mem_history.mp hc'
      · exact hv.unique ⟨log,hc⟩ ⟨log',hc'⟩
      · exact (hv.agrees hs hok h hc' ⟨log,hc⟩).symm
    · obtain hc' | ⟨-,hc'⟩ := h.mem_history.mp hc'
      · exact hv.agrees hs hok h hc ⟨log',hc'⟩
      · have ho := h.origin hc
        have ho' := h.origin hc'
        cases ho with
        | ownVote _ => cases ho' with
          | ownVote _ => rfl
        | voted _ _ _ => cases ho' with
          | voted _ _ _ => rfl

omit [Protobuf] in
theorem init (kv : MemberId → Storage) : VotesOnce (Cluster.init kv) where
  register h := by cases h
  unique := by simp [VotedFor, Cluster.init]

omit [Protobuf] in
theorem lose (hv : VotesOnce s) (h : Loses s s') : VotesOnce s' where
  register := by
    rw [h.node, h.history]
    exact hv.register
  unique := by
    rw [h.history]
    exact hv.unique

end VotesOnce

/-- No two members became leader of one term. -/
def ElectionSafe (s : Cluster) : Prop :=
  ∀ {a b term log log'}, (a,.becameLeader term log) ∈ s.history →
    (b,.becameLeader term log') ∈ s.history → a = b

section Safety
variable [Protobuf] {C : ClusterConfig} {s : Cluster} {ok : Cluster → Label → Prop}
  {kv : MemberId → Storage} {labels : List Label}

theorem Run.votesOnce (hok : ∀ s l, ok s l → onDelivery SingleVote s l)
    (h : Cluster.Run C ok kv labels s) : VotesOnce s :=
  Run.invariant (.init kv) (fun hv hl => hv.lose hl)
    (fun hr hv ho ha => hv.act (Run.electoral hr) (hok _ _ ho) ha) h

omit [Protobuf] in
/-- The majorities of two leaders share a member, and it voted once. -/
theorem VotesOnce.electionSafe (hv : VotesOnce s) (hs : Electoral C s) : ElectionSafe s := by
  intro a b term log log' ha hb
  obtain ⟨⟨Q,hQ,hmaj⟩,-⟩ := hs.elected ha
  obtain ⟨⟨Q',hQ',hmaj'⟩,-⟩ := hs.elected hb
  obtain ⟨m,hm,hm'⟩ := hmaj.inter hmaj'
  exact hv.unique (hQ.voted m hm) (hQ'.voted m hm')

/-- In a run in which every member gives one vote per term, every term has one leader. -/
theorem one_leader_per_term (h : Cluster.Run C (onDelivery SingleVote) kv labels s) :
    ElectionSafe s :=
  (Run.votesOnce (fun _ _ h => h) h).electionSafe (Run.electoral h)

end Safety

section Trio
attribute [local instance] Proto3.protobuf

theorem one_leader_per_term_trio : ∃ s, Cluster.Run trio (onDelivery SingleVote)
    (fun _ => Storage.empty) [.electionTimeout 1,delivery 0,delivery 1] s ∧
      (1,Event.becameLeader 1 []) ∈ s.history ∧ ElectionSafe s := by
  obtain ⟨s,hs,he⟩ : ∃ s, Cluster.Run trio (onDelivery SingleVote) (fun _ => Storage.empty)
      [.electionTimeout 1,delivery 0,delivery 1] s ∧
      (1,Event.becameLeader 1 []) ∈ s.history :=
    Generic.Run.of_check (by decide) (by decide)
  exact ⟨s,hs,he,one_leader_per_term hs⟩

/-- Both candidates of term 1 get the vote of member 3, and both become its leader. -/
theorem two_leaders_in_one_term : ∃ s, Cluster.Run trio anyStep (fun _ => Storage.empty)
    [.electionTimeout 1,.electionTimeout 2,delivery 1,delivery 2,delivery 2,delivery 2] s ∧
      ¬ElectionSafe s := by
  obtain ⟨s,hs,h₁,h₂⟩ : ∃ s, Cluster.Run trio anyStep (fun _ => Storage.empty)
      [.electionTimeout 1,.electionTimeout 2,delivery 1,delivery 2,delivery 2,delivery 2] s ∧
      (1,Event.becameLeader 1 []) ∈ s.history ∧ (2,Event.becameLeader 1 []) ∈ s.history :=
    Generic.Run.of_check (Generic.accepted_of_forall (fun _ _ => trivial) _ _) (by decide)
  exact ⟨s,hs,fun h => absurd (h h₁ h₂) (by decide)⟩

end Trio

end Cluster
end Foskv.Raft
