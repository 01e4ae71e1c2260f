import Foskv.Raft.Cluster
import Foskv.Raft.NodeSteps
import Mathlib.Data.List.Perm.Basic

/-! What one step of the cluster is: a message gets lost, or one member reacts. -/
namespace Foskv.Raft

/-- The member a message names as the one it comes from. -/
def Body.author : Body → MemberId
  | .requestVote request => request.candidateId
  | .appendEntries _ request => request.leaderId
  | .requestVoteReply response => response.header.memberId
  | .appendEntriesReply _ response => response.header.memberId

def Body.voteRequest : Body → Option RequestVoteRequest
  | .requestVote request => some request
  | _ => none

theorem Body.mem_voteRequest {body : Body} {request : RequestVoteRequest} :
    request ∈ body.voteRequest ↔ body = .requestVote request := by
  cases body <;> simp [Body.voteRequest, eq_comm]

def Body.voteResponse : Body → Option RequestVoteResponse
  | .requestVoteReply response => some response
  | _ => none

theorem Body.mem_voteResponse {body : Body} {response : RequestVoteResponse} :
    response ∈ body.voteResponse ↔ body = .requestVoteReply response := by
  cases body <;> simp [Body.voteResponse, eq_comm]

def Body.appendRequest : Body → Option AppendEntriesRequest
  | .appendEntries _ request => some request
  | _ => none

theorem Body.mem_appendRequest {body : Body} {request : AppendEntriesRequest} :
    request ∈ body.appendRequest ↔ ∃ callback, body = .appendEntries callback request := by
  cases body <;> simp [Body.appendRequest, eq_comm]

/-- The response handled by `handle_append_entries_response`. -/
def Body.appendResponse : Body → Option AppendEntriesResponse
  | .appendEntriesReply .appendEntries response => some response
  | _ => none

theorem Body.mem_appendResponse {body : Body} {response : AppendEntriesResponse} :
    response ∈ body.appendResponse ↔ body = .appendEntriesReply .appendEntries response := by
  rcases body with _ | _ | _ | ⟨_ | _,_⟩ <;> simp [Body.appendResponse, eq_comm]

namespace Cluster

/-- The label delivers this packet. -/
def Delivers (s : Cluster) (l : Label) (p : Packet) : Prop :=
  ∃ k io live, l = .deliver k io live ∧ s.network[k]? = some p

/-- A condition on the packets that are delivered. -/
def onDelivery (P : Cluster → Packet → Prop) (s : Cluster) : Label → Prop
  | .deliver k _ _ => ∀ p, s.network[k]? = some p → P s p
  | _ => True

theorem onDelivery.apply {P : Cluster → Packet → Prop} {s : Cluster} {l : Label} {p : Packet}
    (h : onDelivery P s l) (hp : s.Delivers l p) : P s p := by
  obtain ⟨k,io,live,rfl,hk⟩ := hp
  exact h p hk

instance {P : Cluster → Packet → Prop} [∀ s p, Decidable (P s p)] (s : Cluster) (l : Label) :
    Decidable (onDelivery P s l) :=
  match l with
  | .deliver k _ _ =>
    match hk : s.network[k]? with
    | none => .isTrue fun p hp => by simp [hk] at hp
    | some q => decidable_of_iff (P s q) (by
        simp only [onDelivery, hk, Option.some.injEq]
        exact ⟨fun h p hp => hp ▸ h,fun h => h q rfl⟩)
  | .electionTimeout _ => .isTrue trivial
  | .heartbeatTimeout _ => .isTrue trivial
  | .client .. => .isTrue trivial
  | .lose _ => .isTrue trivial

/-- Who takes the step of a label, what its disk accepts and what it reacts to. -/
def taken (s : Cluster) : Label → Option (MemberId × DiskOutcome × Input)
  | .electionTimeout m => some (m,.ok,.electionTimeout)
  | .heartbeatTimeout m => some (m,.ok,.heartbeatTimeout)
  | .client m io method reqPayload sessionId requestId =>
    some (m,io,.client method reqPayload sessionId requestId)
  | .deliver k io live =>
    s.network[k]?.map fun p => (p.receiver,io,.receive p.sender p.body live)
  | .lose _ => none

/-- What the label leaves of a list kept along the messages in flight. -/
def remaining {α : Type} : Label → List α → List α
  | .deliver k _ _, flight => flight.eraseIdx k
  | .lose k, flight => flight.eraseIdx k
  | _, flight => flight

theorem remaining_subset {α : Type} (l : Label) (flight : List α) :
    remaining l flight ⊆ flight := by
  cases l with
  | deliver k io live => exact (List.eraseIdx_sublist flight k).subset
  | lose k => exact (List.eraseIdx_sublist flight k).subset
  | _ => exact List.Subset.refl _

theorem map_remaining {α β : Type} (f : α → β) (l : Label) (flight : List α) :
    (remaining l flight).map f = remaining l (flight.map f) := by
  cases l with
  | deliver k io live => exact (List.eraseIdx_map f flight k).symm
  | lose k => exact (List.eraseIdx_map f flight k).symm
  | _ => rfl

/-- A condition on the step of a node: its state, its disk and what it reacts to. -/
def onStep (P : RaftNode → DiskOutcome → Input → Prop) (s : Cluster) (l : Label) : Prop :=
  ∀ x ∈ s.taken l, P (s.node x.1) x.2.1 x.2.2

instance {P : RaftNode → DiskOutcome → Input → Prop} [∀ n io input, Decidable (P n io input)]
    (s : Cluster) (l : Label) : Decidable (onStep P s l) :=
  inferInstanceAs (Decidable (∀ x ∈ s.taken l, P (s.node x.1) x.2.1 x.2.2))

/-- What a member reacts to, and what stays in flight. -/
inductive Source (C : ClusterConfig) (s : Cluster) (l : Label) (m : MemberId) :
    Input → List Packet → Prop
  | outside {input} (hm : m ∈ C.members) (hinput : ∀ sender body live,
      input ≠ .receive sender body live) : Source C s l m input s.network
  | delivered {p live rest} (hp : s.Delivers l p) (hm : p.receiver = m)
      (hnet : s.network.Perm (p :: rest)) : Source C s l m (.receive p.sender p.body live) rest

/-- Member `m` takes the step: it reacts to `input` and becomes `n'`. -/
structure Acts [Protobuf] (C : ClusterConfig) (s : Cluster) (l : Label) (m : MemberId)
    (input : Input) (n' : RaftNode) (events : List Event) (rest : List Packet) (s' : Cluster) :
    Prop where
  transition : RaftNode.Transition (C.cfg m) (s.node m) input n' events
  source : Source C s l m input rest
  node : s'.node = Function.update s.node m n'
  network : s'.network = rest ++ events.filterMap (packetOf m)
  history : s'.history = s.history ++ events.map (m,·)

/-- A message in flight disappears. -/
structure Loses (s s' : Cluster) : Prop where
  node : s'.node = s.node
  network : s'.network.Sublist s.network
  history : s'.history = s.history

section Steps
variable [Protobuf] {C : ClusterConfig} {s s' : Cluster} {l : Label}

/-- A member acts where its node has a step. -/
theorem act_eq {m : MemberId} {io : DiskOutcome} {input : Input} {n' : RaftNode}
    {events : List Event} (h : (s.node m).step (C.cfg m) io input = some (n',events))
    (network : List Packet) : s.act C m io input network = some
      ⟨Function.update s.node m n',network ++ events.filterMap (packetOf m),
        s.history ++ events.map (m,·)⟩ := by
  rw [act, h]
  rfl

theorem step_client {m : MemberId} {io : DiskOutcome} {method : KvMethod} {reqPayload : Bytes}
    {sessionId requestId : ℕ} {n' : RaftNode} {events : List Event} (hm : m ∈ C.members)
    (h : (s.node m).client (C.cfg m) io reqPayload sessionId requestId method =
      some (n',events)) :
    s.step C (.client m io method reqPayload sessionId requestId) = some
      ⟨Function.update s.node m n',s.network ++ events.filterMap (packetOf m),
        s.history ++ events.map (m,·)⟩ := by
  have hn : (s.node m).step (C.cfg m) io (.client method reqPayload sessionId requestId) =
    some (n',events) := h
  exact (if_pos hm).trans (act_eq hn s.network)

/-- Every step loses a message or is one step of a member's node, which adds to what remains in
flight. -/
theorem step_remaining (h : s.step C l = some s') :
    (s.taken l = none ∧ s'.network = remaining l s.network ∧ Loses s s') ∨
    ∃ m io input n' events, s.taken l = some (m,io,input) ∧
      (s.node m).step (C.cfg m) io input = some (n',events) ∧
        Acts C s l m input n' events (remaining l s.network) s' := by
  have hact : ∀ {m io input rest}, s.taken l = some (m,io,input) → Source C s l m input rest →
      s.act C m io input rest = some s' → ∃ m io input n' events,
        s.taken l = some (m,io,input) ∧ (s.node m).step (C.cfg m) io input = some (n',events) ∧
          Acts C s l m input n' events rest s' := by
    intro m io input rest ht hsource h
    obtain ⟨⟨n',events⟩,hn,h⟩ := Option.bind_eq_some_iff.mp h
    cases h
    exact ⟨m,io,input,n',events,ht,hn,RaftNode.step_transition hn,hsource,rfl,rfl,rfl⟩
  cases l with
  | electionTimeout m =>
    simp only [step, Option.ite_none_right_eq_some] at h
    exact Or.inr (hact rfl (.outside h.1 (by simp)) h.2)
  | heartbeatTimeout m =>
    simp only [step, Option.ite_none_right_eq_some] at h
    exact Or.inr (hact rfl (.outside h.1 (by simp)) h.2)
  | client m io method reqPayload sessionId requestId =>
    simp only [step, Option.ite_none_right_eq_some] at h
    exact Or.inr (hact rfl (.outside h.1 (by simp)) h.2)
  | deliver k io live =>
    obtain ⟨p,hp,h⟩ := Option.bind_eq_some_iff.mp h
    have hperm : s.network.Perm (p :: s.network.eraseIdx k) := by
      obtain ⟨hlt,rfl⟩ := List.getElem?_eq_some_iff.mp hp
      exact (List.getElem_cons_eraseIdx_perm hlt).symm
    exact Or.inr (hact (by rw [taken, hp]; rfl) (.delivered ⟨k,io,live,rfl,hp⟩ rfl hperm) h)
  | lose k =>
    simp only [step, Option.ite_none_right_eq_some, Option.some.injEq] at h
    obtain ⟨-,rfl⟩ := h
    exact Or.inl ⟨rfl,rfl,rfl,List.eraseIdx_sublist _ _,rfl⟩

/-- Every step loses a message or is one step of a member's node. -/
theorem step_taken (h : s.step C l = some s') :
    (s.taken l = none ∧ Loses s s') ∨ ∃ m io input n' events rest,
      s.taken l = some (m,io,input) ∧ (s.node m).step (C.cfg m) io input = some (n',events) ∧
        Acts C s l m input n' events rest s' := by
  obtain ⟨hnone,-,hl⟩ | ⟨m,io,input,n',events,ht,hn,ha⟩ := step_remaining h
  · exact Or.inl ⟨hnone,hl⟩
  · exact Or.inr ⟨m,io,input,n',events,_,ht,hn,ha⟩

/-- Every step loses a message or is the reaction of one member. -/
theorem step_cases (h : s.step C l = some s') :
    Loses s s' ∨ ∃ m input n' events rest, Acts C s l m input n' events rest s' := by
  obtain ⟨-,hl⟩ | ⟨m,io,input,n',events,rest,-,-,ha⟩ := step_taken h
  · exact Or.inl hl
  · exact Or.inr ⟨m,input,n',events,rest,ha⟩

/-- A delivery is the receiver's reaction to the packet. -/
theorem Delivers.acts {p : Packet} (hp : s.Delivers l p) (h : s.step C l = some s') :
    ∃ live n' events rest,
      Acts C s l p.receiver (.receive p.sender p.body live) n' events rest s' := by
  obtain ⟨k,io,live,rfl,hk⟩ := hp
  have htaken : s.taken (.deliver k io live) =
      some (p.receiver,io,.receive p.sender p.body live) := by rw [taken, hk]; rfl
  obtain ⟨hnone,-⟩ | ⟨m,io',input,n',events,rest,ht,-,ha⟩ := step_taken h
  · simp [htaken] at hnone
  · cases htaken.symm.trans ht
    exact ⟨live,n',events,rest,ha⟩

namespace Acts

variable {m : MemberId} {input : Input} {n' : RaftNode} {events : List Event} {rest : List Packet}

theorem node_self (h : Acts C s l m input n' events rest s') : s'.node m = n' := by
  rw [h.node, Function.update_self]

theorem node_ne (h : Acts C s l m input n' events rest s') {i : MemberId} (hi : i ≠ m) :
    s'.node i = s.node i := by
  rw [h.node, Function.update_of_ne hi]

theorem origin (h : Acts C s l m input n' events rest s') {e : Event} (he : e ∈ events) :
    RaftNode.Origin (C.cfg m) (s.node m) input n' e :=
  h.transition.origin he

theorem rest_subset (h : Acts C s l m input n' events rest s') : rest ⊆ s.network := by
  cases h.source with
  | outside _ _ => exact List.Subset.refl _
  | delivered _ _ hnet => exact fun p hp => hnet.mem_iff.mpr (List.mem_cons_of_mem _ hp)

/-- A message in flight after the step was there before, or the member sends it now. -/
theorem mem_network (h : Acts C s l m input n' events rest s') {p : Packet}
    (hp : p ∈ s'.network) :
    p ∈ s.network ∨ p.sender = m ∧ .sent p.receiver p.body ∈ events := by
  rw [h.network] at hp
  obtain hp | hp := List.mem_append.mp hp
  · exact Or.inl (h.rest_subset hp)
  · obtain ⟨e,he,hp⟩ := List.mem_filterMap.mp hp
    cases e <;> simp only [packetOf, Option.some.injEq, reduceCtorEq] at hp
    subst hp
    exact Or.inr ⟨rfl,he⟩

theorem mem_history (h : Acts C s l m input n' events rest s') {i : MemberId} {e : Event} :
    (i,e) ∈ s'.history ↔ (i,e) ∈ s.history ∨ i = m ∧ e ∈ events := by
  simp only [h.history, List.mem_append, List.mem_map, Prod.mk.injEq]
  constructor
  · rintro (h | ⟨_,he,rfl,rfl⟩)
    · exact Or.inl h
    · exact Or.inr ⟨rfl,he⟩
  · rintro (h | ⟨rfl,he⟩)
    · exact Or.inl h
    · exact Or.inr ⟨_,he,rfl,rfl⟩

theorem history_subset (h : Acts C s l m input n' events rest s') : s.history ⊆ s'.history := by
  rw [h.history]
  exact List.subset_append_left _ _

/-- The packet delivered in a step on a received message. -/
theorem packet (h : Acts C s l m input n' events rest s') {sender : MemberId} {body : Body}
    {live : List ℕ} (hi : input = .receive sender body live) :
    s.Delivers l ⟨sender,m,body⟩ ∧ s.network.Perm (⟨sender,m,body⟩ :: rest) := by
  cases h.source with
  | outside _ hinput => exact absurd hi (hinput _ _ _)
  | @delivered p live' _ hp hm hnet =>
    cases hi
    subst hm
    exact ⟨hp,hnet⟩

theorem packet_mem (h : Acts C s l m input n' events rest s') {sender : MemberId} {body : Body}
    {live : List ℕ} (hi : input = .receive sender body live) : ⟨sender,m,body⟩ ∈ s.network :=
  (h.packet hi).2.mem_iff.mpr List.mem_cons_self

theorem term_le (h : Acts C s l m input n' events rest s') (i : MemberId) :
    (s.node i).currentTerm ≤ (s'.node i).currentTerm := by
  by_cases hi : i = m
  · subst hi
    rw [h.node_self]
    exact h.transition.term_le
  · rw [h.node_ne hi]

end Acts

theorem step_history (h : s.step C l = some s') : s.history ⊆ s'.history := by
  obtain hl | ⟨m,input,n',events,rest,ha⟩ := step_cases h
  · exact hl.history ▸ List.Subset.refl _
  · exact ha.history_subset

/-- An invariant of runs is proved for lost messages and for the reaction of a member. -/
theorem Run.invariant {ok : Cluster → Label → Prop} {kv : MemberId → Storage}
    {P : Cluster → Prop} (h0 : P (Cluster.init kv))
    (hlose : ∀ {s s'}, P s → Loses s s' → P s')
    (hact : ∀ {ls s l m input n' events rest s'}, Cluster.Run C ok kv ls s → P s → ok s l →
      Acts C s l m input n' events rest s' → P s')
    {labels : List Label} {s : Cluster} (h : Cluster.Run C ok kv labels s) : P s := by
  refine Generic.Run.invariant h0 ?_ h
  intro ls s l s' hr hP hok hs
  obtain hl | ⟨m,input,n',events,rest,ha⟩ := step_cases hs
  · exact hlose hP hl
  · exact hact hr hP hok ha

end Steps

/-- What holds of addresses and terms in every run. -/
structure Addressed (C : ClusterConfig) (s : Cluster) : Prop where
  firstIndex : ∀ m, (s.node m).logs.firstIndex = 1
  members : ∀ p ∈ s.network, p.sender ∈ C.members ∧ p.receiver ∈ C.members
  other : ∀ p ∈ s.network, p.receiver ≠ p.sender
  author : ∀ p ∈ s.network, p.body.author = p.sender
  term_le : ∀ p ∈ s.network, p.body.term ≤ (s.node p.sender).currentTerm

section Addresses
variable [Protobuf] {C : ClusterConfig} {s s' : Cluster} {l : Label}

theorem Acts.member {m : MemberId} {input : Input} {n' : RaftNode} {events : List Event}
    {rest : List Packet} (h : Acts C s l m input n' events rest s') (hs : Addressed C s) :
    m ∈ C.members := by
  cases h.source with
  | outside hm _ => exact hm
  | delivered _ hm hnet => exact hm ▸ (hs.members _ (hnet.mem_iff.mpr List.mem_cons_self)).2

/-- A message sent in a step is addressed to another member and names its sender. -/
theorem Acts.sent {m : MemberId} {input : Input} {n' : RaftNode} {events : List Event}
    {rest : List Packet} (h : Acts C s l m input n' events rest s') (hs : Addressed C s)
    {receiver : MemberId} {body : Body} (he : .sent receiver body ∈ events) :
    (m ∈ C.members ∧ receiver ∈ C.members) ∧ receiver ≠ m ∧ body.author = m := by
  have hm := h.member hs
  have hback : ∀ {sender body live}, input = .receive sender body live →
      sender ∈ C.members ∧ sender ≠ m := fun hi =>
    ⟨(hs.members _ (h.packet_mem hi)).1,(hs.other _ (h.packet_mem hi)).symm⟩
  have ho := h.origin he
  cases ho with
  | requestVote _ hpeer hne => exact ⟨⟨hm,hpeer⟩,hne,rfl⟩
  | reissued _ hpeer hne _ => exact ⟨⟨hm,hpeer⟩,hne,rfl⟩
  | heartbeat _ hpeer hne => exact ⟨⟨hm,hpeer⟩,hne,rfl⟩
  | replicated _ _ hpeer hne _ => exact ⟨⟨hm,hpeer⟩,hne,rfl⟩
  | voteReply _ => exact ⟨⟨hm,(hback rfl).1⟩,(hback rfl).2,rfl⟩
  | appendReply _ => exact ⟨⟨hm,(hback rfl).1⟩,(hback rfl).2,rfl⟩

omit [Protobuf] in
theorem Addressed.init (kv : MemberId → Storage) : Addressed C (Cluster.init kv) where
  firstIndex _ := rfl
  members := by simp [Cluster.init]
  other := by simp [Cluster.init]
  author := by simp [Cluster.init]
  term_le := by simp [Cluster.init]

omit [Protobuf] in
theorem Addressed.lose (hs : Addressed C s) (h : Loses s s') : Addressed C s' where
  firstIndex m := h.node ▸ hs.firstIndex m
  members p hp := hs.members p (h.network.subset hp)
  other p hp := hs.other p (h.network.subset hp)
  author p hp := hs.author p (h.network.subset hp)
  term_le p hp := h.node ▸ hs.term_le p (h.network.subset hp)

theorem Addressed.act (hs : Addressed C s) {m : MemberId} {input : Input} {n' : RaftNode}
    {events : List Event} {rest : List Packet} (h : Acts C s l m input n' events rest s') :
    Addressed C s' where
  firstIndex i := by
    by_cases hi : i = m
    · subst hi
      rw [h.node_self, h.transition.firstIndex]
      exact hs.firstIndex i
    · rw [h.node_ne hi]
      exact hs.firstIndex i
  members p hp := by
    obtain hp | ⟨rfl,he⟩ := h.mem_network hp
    · exact hs.members p hp
    · exact (h.sent hs he).1
  other p hp := by
    obtain hp | ⟨rfl,he⟩ := h.mem_network hp
    · exact hs.other p hp
    · exact (h.sent hs he).2.1
  author p hp := by
    obtain hp | ⟨rfl,he⟩ := h.mem_network hp
    · exact hs.author p hp
    · exact (h.sent hs he).2.2
  term_le p hp := by
    obtain hp | ⟨rfl,he⟩ := h.mem_network hp
    · exact (hs.term_le p hp).trans (h.term_le _)
    · rw [h.node_self]
      exact (h.origin he).sent_term h.transition.term_le

theorem Run.addressed {ok : Cluster → Label → Prop} {kv : MemberId → Storage}
    {labels : List Label} (h : Cluster.Run C ok kv labels s) : Addressed C s :=
  Run.invariant (.init kv) (fun hs hl => hs.lose hl) (fun _ hs _ ha => hs.act ha) h

end Addresses

end Cluster
end Foskv.Raft
