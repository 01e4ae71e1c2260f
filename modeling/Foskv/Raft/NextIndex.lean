import Foskv.Generic.History
import Foskv.Raft.CatchUp

/-! What a leader re-sends against what it knows to be acknowledged. A success moves only
`match_index_`, and a rejection that arrives late sets `next_index_` back behind it. -/
namespace Foskv.Raft
open Generic

theorem IndexMap.lookup_mapValues (f : ℕ → ℕ) (M : IndexMap) (k : MemberId) :
    (M.mapValues f).lookup k = (M.lookup k).map f :=
  List.dlookup_map₂ (f := fun _ => f) k

namespace RaftNode

/-- `next_index_[m] > match_index_[m]`, where both are there. -/
def AheadOf (n : RaftNode) (m : MemberId) : Prop :=
  ∀ nextIndex ∈ n.nextIndex.lookup m, ∀ matchIndex ∈ n.matchIndex.lookup m, matchIndex < nextIndex

instance (n : RaftNode) (m : MemberId) : Decidable (n.AheadOf m) :=
  inferInstanceAs (Decidable (∀ nextIndex ∈ n.nextIndex.lookup m,
    ∀ matchIndex ∈ n.matchIndex.lookup m, matchIndex < nextIndex))

/-- A heartbeat now re-sends member `m` only the entries after those it has acknowledged. -/
def SendsNews (cfg : RaftConfig) (n : RaftNode) (m : MemberId) : Prop :=
  ∀ request ∈ resends m (n.startHeartbeatTimeout cfg).2, ∀ matchIndex ∈ n.matchIndex.lookup m,
    request.entries = n.logs.entries.drop request.prevLogIndex ∧
      matchIndex ≤ request.prevLogIndex

/-- The members whose `match_index_` entry a leader has set since it became leader. -/
def mark (n n' : RaftNode) (marked : MemberId → Bool) (m : MemberId) : Bool :=
  n.role = .leader && n'.role = .leader &&
    (marked m || n'.matchIndex.lookup m ≠ n.matchIndex.lookup m)

/-- The leader is ahead of every other member that is marked. -/
def Ahead (n : RaftNode) (self : MemberId) (marked : MemberId → Bool) : Prop :=
  n.role = .leader → ∀ m, m ≠ self → marked m = true → n.AheadOf m

/-- A rejection names an index above what its sender is marked with. A success that sets the
match index of its sender sets it below the next index. -/
def KeepsAhead (n : RaftNode) (self : MemberId) (marked : MemberId → Bool) : Input → Prop
  | .receive _ body _ => ∀ response ∈ body.appendResponse, n.role = .leader →
    response.header.term = n.currentTerm → response.header.memberId ≠ self →
      if response.success then
        (∀ known ∈ n.matchIndex.lookup response.header.memberId,
          known < response.lastLogIndex) →
        ∀ nextIndex ∈ n.nextIndex.lookup response.header.memberId,
          response.lastLogIndex < nextIndex
      else marked response.header.memberId = true →
        ∀ known ∈ n.matchIndex.lookup response.header.memberId, known < response.conflictIndex
  | _ => True

instance (n : RaftNode) (self : MemberId) (marked : MemberId → Bool) (input : Input) :
    Decidable (n.KeepsAhead self marked input) :=
  match input with
  | .receive _ body _ => inferInstanceAs (Decidable (∀ response ∈ body.appendResponse,
      n.role = .leader → response.header.term = n.currentTerm →
      response.header.memberId ≠ self → if response.success then _ else _))
  | .electionTimeout => .isTrue trivial
  | .heartbeatTimeout => .isTrue trivial
  | .client .. => .isTrue trivial

section Heartbeat
variable {cfg : RaftConfig} {n : RaftNode} {m : MemberId}

theorem mem_resends {request : AppendEntriesRequest}
    (h : request ∈ resends m (n.startHeartbeatTimeout cfg).2) :
    ∃ nextIndex ∈ n.nextIndex.lookup m, 0 < nextIndex ∧
      request = n.reissueRequest cfg nextIndex := by
  obtain ⟨e,he,hreq⟩ := List.mem_filterMap.mp h
  unfold startHeartbeatTimeout at he
  split_ifs at he with hrole
  · simp at he
  obtain he | he := List.mem_append.mp he
  · obtain ⟨es,hes,he⟩ := List.mem_flatten.mp he
    obtain ⟨x,hx,rfl⟩ := List.mem_map.mp hes
    obtain ⟨hnext,-,rfl⟩ := mem_reissue.mp he
    simp only [Option.ite_none_right_eq_some, Option.some.injEq] at hreq
    obtain ⟨rfl,rfl⟩ := hreq
    exact ⟨x.2,AList.mem_lookup_iff.mpr hx,hnext.1,rfl⟩
  · obtain ⟨_,_,_,rfl⟩ := mem_broadcast.mp he
    simp at hreq

/-- Nothing acknowledged is sent again to a member the leader is ahead of. -/
theorem AheadOf.sendsNews (h : n.AheadOf m) (hfirst : n.logs.firstIndex = 1) :
    n.SendsNews cfg m := by
  intro request hreq matchIndex hmatch
  obtain ⟨nextIndex,hnext,hpos,rfl⟩ := mem_resends hreq
  have hlt := h nextIndex hnext matchIndex hmatch
  refine ⟨reissueRequest_entries hfirst hpos,?_⟩
  change matchIndex ≤ nextIndex - 1
  omega

end Heartbeat

/-- The step leaves what the node knows of member `m`, and moves its next index only forward. -/
structure Retains (m : MemberId) (n n' : RaftNode) : Prop where
  matchIndex : n'.matchIndex.lookup m = n.matchIndex.lookup m
  nextIndex : ∀ v' ∈ n'.nextIndex.lookup m, ∃ v ∈ n.nextIndex.lookup m, v ≤ v'

theorem Retains.of_eq {m : MemberId} {n n' : RaftNode}
    (h : n'.matchIndex = n.matchIndex ∧ n'.nextIndex = n.nextIndex) : Retains m n n' :=
  ⟨congrArg _ h.1,fun v' hv => ⟨v',h.2 ▸ hv,le_rfl⟩⟩

section Steps
variable [Protobuf] {cfg : RaftConfig} {n n' : RaftNode} {io : DiskOutcome} {input : Input}
  {events : List Event} {self : MemberId} {marked : MemberId → Bool}

/-- Only a response to a request with entries tells a leader about another member. -/
theorem Transition.retains (h : Transition cfg n input n' events) (hrole : n.role = .leader)
    (hinput : ∀ sender response live,
      input ≠ .receive sender (.appendEntriesReply .appendEntries response) live)
    {m : MemberId} (hm : m ≠ cfg.memberId) : Retains m n n' := by
  cases h with
  | idle _ => exact .of_eq ⟨rfl,rfl⟩
  | election hnot => exact absurd hrole hnot
  | heartbeat _ =>
    refine ⟨rfl,fun v' hv => ?_⟩
    simp only [advanceNextIndex, IndexMap.lookup_mapValues, Option.mem_def,
      Option.map_eq_some_iff] at hv
    obtain ⟨v,hv,rfl⟩ := hv
    refine ⟨v,hv,?_⟩
    split_ifs <;> omega
  | voteStale _ => exact .of_eq ⟨rfl,rfl⟩
  | voteDenied hobs _ | voteGranted hobs _ _ =>
    obtain ⟨r,v,vf,p,rfl⟩ := hobs.eq
    exact .of_eq ⟨rfl,rfl⟩
  | appendStale _ => exact .of_eq ⟨rfl,rfl⟩
  | heartbeatReceived hobs _ hview =>
    obtain ⟨sm,la,rfl⟩ := hview.eq
    obtain ⟨r,v,vf,p,rfl⟩ := hobs.eq
    obtain ⟨c,hc⟩ := raiseCommit_eq _ _
    rw [hc]
    exact .of_eq ⟨rfl,rfl⟩
  | appendBeyond hobs _ _ =>
    obtain ⟨r,v,vf,p,rfl⟩ := hobs.eq
    exact .of_eq ⟨rfl,rfl⟩
  | appendFailed hobs _ _ hres =>
    obtain ⟨old,q,rfl,-⟩ := hres.eq
    obtain ⟨r,v,vf,p,rfl⟩ := hobs.eq
    exact .of_eq ⟨rfl,rfl⟩
  | appended hobs _ _ hres hset =>
    obtain ⟨old,q,rfl,-⟩ := hres.eq
    obtain ⟨sm,la,c,rfl⟩ := hset.eq
    obtain ⟨r,v,vf,p,rfl⟩ := hobs.eq
    exact .of_eq ⟨rfl,rfl⟩
  | lowered _ _ => exact .of_eq ⟨rfl,rfl⟩
  | voteCounted _ hnot _ _ => exact absurd hrole hnot
  | elected _ hcandidate _ _ => simp [hcandidate] at hrole
  | appendRejected _ _ _ => exact absurd rfl (hinput _ _ _)
  | appendKnown _ _ _ _ => exact absurd rfl (hinput _ _ _)
  | committed _ _ _ _ => exact absurd rfl (hinput _ _ _)
  | queued _ =>
    refine ⟨AList.lookup_insert_ne hm,fun v' hv => ⟨v',?_,le_rfl⟩⟩
    rwa [AList.lookup_insert_ne hm] at hv

omit [Protobuf] in
theorem Ahead.retained (h : n.Ahead self marked)
    (hkept : n.role = .leader → ∀ m, m ≠ self → Retains m n n') :
    n'.Ahead self (mark n n' marked) := by
  intro hrole m hm hmark
  simp only [mark, Bool.and_eq_true, decide_eq_true_eq, Bool.or_eq_true] at hmark
  obtain ⟨⟨hlead,-⟩,hmark⟩ := hmark
  obtain ⟨hmatch,hnext⟩ := hkept hlead m hm
  have hold := h hlead m hm (hmark.resolve_right fun hne => hne hmatch)
  intro v' hv' w hw
  obtain ⟨v,hv,hle⟩ := hnext v' hv'
  exact (hold v hv w (hmatch ▸ hw)).trans_le hle

section Response
variable {response : AppendEntriesResponse} (hrole : n.role = .leader)
  (hterm : response.header.term = n.currentTerm)
include hrole hterm

variable (io) in
/-- What a success leaves in `match_index_`. -/
theorem handleSuccess (hsuccess : response.success = true) (live : List ℕ) :
    (n.handleAppendEntriesResponse io live response).1.role = .leader ∧
    (n.handleAppendEntriesResponse io live response).1.nextIndex = n.nextIndex ∧
      ∀ m, (n.handleAppendEntriesResponse io live response).1.matchIndex.lookup m =
        if m = response.header.memberId ∧ ∀ known ∈ n.matchIndex.lookup m,
          known < response.lastLogIndex then some response.lastLogIndex
        else n.matchIndex.lookup m := by
  simp only [handleAppendEntriesResponse, hrole, hterm, hsuccess, lt_irrefl, ne_eq,
    not_true_eq_false, or_self, Bool.not_true, Bool.false_eq_true, if_false]
  rw [IndexMap.lookup_touch_self, Option.getD_some]
  split_ifs with hnew
  · refine ⟨rfl,rfl,fun m => ?_⟩
    simp only [commitMiddle]
    by_cases hm : m = response.header.memberId
    · subst hm
      rw [AList.lookup_insert, if_pos]
      refine ⟨rfl,fun known hknown => ?_⟩
      rwa [Option.mem_def.mp hknown, Option.getD_some] at hnew
    · rw [AList.lookup_insert_ne hm, IndexMap.lookup_touch_ne hm, if_neg fun h => hm h.1]
  · refine ⟨rfl,rfl,fun m => ?_⟩
    by_cases hm : m = response.header.memberId
    · subst hm
      cases hk : n.matchIndex.lookup response.header.memberId with
      | none =>
        have hzero : response.lastLogIndex = 0 := by simpa [hk] using hnew
        simp [hk, hzero]
      | some known =>
        have hle : response.lastLogIndex ≤ known := by simpa [hk] using hnew
        simp [hk, hle]
    · rw [IndexMap.lookup_touch_ne hm, if_neg fun h => hm h.1]

theorem Ahead.rejection_iff (hn : n.Ahead self marked) (hfail : response.success = false)
    {sender : MemberId} (live : List ℕ) :
    (n.handleAppendEntriesResponse io live response).1.Ahead self
        (mark n (n.handleAppendEntriesResponse io live response).1 marked) ↔
      n.KeepsAhead self marked
        (.receive sender (.appendEntriesReply .appendEntries response) live) := by
  rw [handleRejection hrole hterm hfail]
  constructor
  · intro h r hr _ _ hne
    cases hr
    rw [if_neg (by simp [hfail])]
    intro hmark known hknown
    refine h hrole _ hne ?_ response.conflictIndex (AList.lookup_insert _) known hknown
    simp [mark, hrole, hmark]
  · intro h _ m hm hmark v hv w hw
    have hmark : marked m = true := by simpa [mark, hrole] using hmark
    by_cases hk : m = response.header.memberId
    · subst hk
      have hkeep := h response rfl hrole hterm hm
      rw [if_neg (by simp [hfail])] at hkeep
      obtain rfl : response.conflictIndex = v := by simpa using hv
      exact hkeep hmark w hw
    · refine hn hrole m hm hmark v ?_ w hw
      simpa [AList.lookup_insert_ne hk] using hv

theorem Ahead.success_iff (hn : n.Ahead self marked) (hsuccess : response.success = true)
    {sender : MemberId} (live : List ℕ) :
    (n.handleAppendEntriesResponse io live response).1.Ahead self
        (mark n (n.handleAppendEntriesResponse io live response).1 marked) ↔
      n.KeepsAhead self marked
        (.receive sender (.appendEntriesReply .appendEntries response) live) := by
  obtain ⟨hrole',hnext,hmatch⟩ := handleSuccess io hrole hterm hsuccess live
  generalize (n.handleAppendEntriesResponse io live response).1 = n' at hrole' hnext hmatch ⊢
  constructor
  · intro h r hr _ _ hne
    cases hr
    rw [if_pos hsuccess]
    intro hnew v hv
    have hset := hmatch response.header.memberId
    rw [if_pos ⟨rfl,hnew⟩] at hset
    refine h hrole' _ hne ?_ v (hnext ▸ hv) _ hset
    have hchanged : n'.matchIndex.lookup response.header.memberId ≠
        n.matchIndex.lookup response.header.memberId := by
      rw [hset]
      exact fun heq => (hnew _ heq.symm).ne rfl
    simp [mark, hrole, hrole', hchanged]
  · intro h _ m hm hmark v hv w hw
    rw [hnext] at hv
    have hold := hmatch m
    by_cases hnew : m = response.header.memberId ∧ ∀ known ∈ n.matchIndex.lookup m,
        known < response.lastLogIndex
    · rw [if_pos hnew] at hold
      obtain ⟨rfl,hnew⟩ := hnew
      obtain rfl : response.lastLogIndex = w := by simpa [hold] using hw
      have hkeep := h response rfl hrole hterm hm
      rw [if_pos hsuccess] at hkeep
      exact hkeep hnew v hv
    · rw [if_neg hnew] at hold
      have hmark : marked m = true := by simpa [mark, hrole, hrole', hold] using hmark
      exact hn hrole m hm hmark v hv w (hold ▸ hw)

end Response

variable (io) in
/-- A response that does not belong to the leader's term changes nothing, or ends the term. -/
theorem handleAppendEntriesResponse_aside {response : AppendEntriesResponse}
    (h : ¬(n.role = .leader ∧ response.header.term = n.currentTerm)) (live : List ℕ) :
    (n.handleAppendEntriesResponse io live response).1 = n ∨
      (n.handleAppendEntriesResponse io live response).1.role = .follower := by
  simp only [handleAppendEntriesResponse]
  split_ifs with hstale hgreater hfail
  · exact Or.inl rfl
  · right
    obtain ⟨p,hp⟩ := stepDown_eq n io response.header.term response.header.term
    rw [hp]
    rfl
  · exact absurd ⟨by tauto,by omega⟩ h
  · exact absurd ⟨by tauto,by omega⟩ h
  · exact absurd ⟨by tauto,by omega⟩ h

/-- Whether a step keeps the leader ahead. -/
theorem step_ahead_iff (h : n.step cfg io input = some (n',events))
    (hn : n.Ahead cfg.memberId marked) :
    n'.Ahead cfg.memberId (mark n n' marked) ↔ n.KeepsAhead cfg.memberId marked input := by
  by_cases hinput : ∃ sender response live,
      input = .receive sender (.appendEntriesReply .appendEntries response) live
  · obtain ⟨sender,response,live,rfl⟩ := hinput
    obtain rfl : (n.handleAppendEntriesResponse io live response).1 = n' :=
      congrArg Prod.fst (Option.some.inj h)
    by_cases hlead : n.role = .leader ∧ response.header.term = n.currentTerm
    · cases hs : response.success with
      | false => exact hn.rejection_iff hlead.1 hlead.2 hs live
      | true => exact hn.success_iff hlead.1 hlead.2 hs live
    · refine iff_of_true ?_ fun r hr hrole hterm _ => ?_
      · obtain heq | hfollower := handleAppendEntriesResponse_aside io hlead live
        · rw [heq]
          exact hn.retained fun _ _ _ => .of_eq ⟨rfl,rfl⟩
        · intro hrole'
          rw [hfollower] at hrole'
          cases hrole'
      · cases hr
        exact absurd ⟨hrole,hterm⟩ hlead
  · have hother : ∀ sender response live,
        input ≠ .receive sender (.appendEntriesReply .appendEntries response) live :=
      fun sender response live heq => hinput ⟨sender,response,live,heq⟩
    refine iff_of_true (hn.retained fun hrole m hm =>
      (step_transition h).retains hrole hother hm) ?_
    cases input with
    | receive sender body live =>
      intro response hresponse
      rw [Body.mem_appendResponse.mp hresponse] at hother
      exact absurd rfl (hother _ _ _)
    | _ => trivial

end Steps
end RaftNode

/-- For each member the members whose match index it has set as the leader it is. -/
abbrev Marks := MemberId → MemberId → Bool

namespace Cluster

def markAll (s : Cluster) (_ : Label) (s' : Cluster) (marks : Marks) : Marks := fun a =>
  RaftNode.mark (s.node a) (s'.node a) (marks a)

/-- A run of the cluster with the marks beside its states. -/
abbrev MarkedRun [Protobuf] (C : ClusterConfig) (ok : Cluster × Marks → Label → Prop)
    (kv : MemberId → Storage) : List Label → Cluster × Marks → Prop :=
  Generic.Run (recording (Cluster.step C) markAll) ok (Cluster.init kv,fun _ _ => false)

/-- A leader keeps its next index for another member above a match index it has set for it, and
re-sends that member nothing it has acknowledged. -/
def NotResent (C : ClusterConfig) (w : Cluster × Marks) : Prop :=
  ∀ a m, (w.1.node a).role = .leader → m ≠ a → w.2 a m = true →
    (w.1.node a).AheadOf m ∧ (w.1.node a).SendsNews (C.cfg a) m

/-- A response that a leader handles keeps it ahead. -/
def AnswersAhead (w : Cluster × Marks) (l : Label) : Prop :=
  ∀ x ∈ w.1.taken l, (w.1.node x.1).KeepsAhead x.1 (w.2 x.1) x.2.2

instance (w : Cluster × Marks) (l : Label) : Decidable (AnswersAhead w l) :=
  inferInstanceAs (Decidable (∀ x ∈ w.1.taken l, (w.1.node x.1).KeepsAhead x.1 (w.2 x.1) x.2.2))

section Runs
variable [Protobuf] {C : ClusterConfig} {s : Cluster} {w w' : Cluster × Marks} {l : Label}
  {kv : MemberId → Storage} {labels : List Label}

omit [Protobuf] in
theorem notResent_iff (hs : Addressed C w.1) :
    NotResent C w ↔ ∀ a, (w.1.node a).Ahead a (w.2 a) := by
  constructor
  · intro h a hrole m hm hmark
    exact (h a m hrole hm hmark).1
  · intro h a m hrole hm hmark
    exact ⟨h a hrole m hm hmark,(h a hrole m hm hmark).sendsNews (hs.firstIndex a)⟩

/-- Whether a step of the cluster keeps the leaders ahead. -/
theorem ahead_step_iff (hw : ∀ a, (w.1.node a).Ahead a (w.2 a))
    (h : recording (Cluster.step C) markAll w l = some w') :
    (∀ a, (w'.1.node a).Ahead a (w'.2 a)) ↔ AnswersAhead w l := by
  obtain ⟨hstep,hmarks⟩ := recording_eq_some.mp h
  have hkept : ∀ a, w'.1.node a = w.1.node a → (w'.1.node a).Ahead a (w'.2 a) := by
    intro a heq
    rw [hmarks, markAll, heq]
    exact (hw a).retained fun _ _ _ => .of_eq ⟨rfl,rfl⟩
  obtain ⟨htaken,hlose⟩ | ⟨m,io,input,n',events,rest,htaken,hnode,hacts⟩ := step_taken hstep
  · refine iff_of_true (fun a => hkept a (congrFun hlose.node a)) fun x hx => ?_
    simp [htaken] at hx
  · have hself := RaftNode.step_ahead_iff hnode (hw m)
    have hmark : w'.2 m = RaftNode.mark (w.1.node m) n' (w.2 m) := by
      rw [hmarks, markAll, hacts.node_self]
    constructor
    · intro hall x hx
      obtain rfl := Option.some.inj (htaken.symm.trans hx)
      refine hself.mp ?_
      have hm := hall m
      rw [hacts.node_self, hmark] at hm
      exact hm
    · intro hans a
      by_cases ha : a = m
      · subst ha
        rw [hacts.node_self, hmark]
        exact hself.mpr (hans _ htaken)
      · exact hkept a (hacts.node_ne ha)

/-- Along a run, leaders keep ahead of what is acknowledged exactly when every response they
handle keeps them ahead. -/
theorem acknowledged_not_resent_iff (h : Cluster.Run C anyStep kv labels s) :
    ∃ marks, MarkedRun C (fun _ _ => True) kv labels (s,marks) ∧
      ((∀ ks w, ks <+: labels → MarkedRun C (fun _ _ => True) kv ks w → NotResent C w) ↔
        MarkedRun C AnswersAhead kv labels (s,marks)) := by
  obtain ⟨marks,hmarked⟩ := h.record markAll fun _ _ => false
  refine ⟨marks,hmarked,Generic.Run.always_iff ?_ ?_ hmarked⟩
  · intro a m hrole
    cases hrole
  · intro ls w l w' hrun hw hnext
    have hs : Cluster.Run C anyStep kv ls w.1 := hrun.forget fun _ _ _ => trivial
    have hs' : Cluster.Run C anyStep kv (ls ++ [l]) w'.1 :=
      hs.snoc trivial (recording_eq_some.mp hnext).1
    rw [notResent_iff (Run.addressed hs'),
      ahead_step_iff ((notResent_iff (Run.addressed hs)).mp hw) hnext]

end Runs

section Trio
attribute [local instance] Proto3.protobuf

/-- Member 3 rejects the first request of member 2, is sent both entries and acknowledges them. -/
theorem acknowledged_not_resent_trio : ∃ s, Cluster.Run trio anyStep (fun _ => Storage.empty)
    [.electionTimeout 1,delivery 0,delivery 1,putting 1 1,delivery 1,.electionTimeout 2,
      delivery 4,delivery 4,putting 2 2,delivery 5,delivery 5,.heartbeatTimeout 2,delivery 5,
      delivery 7] s ∧
    ∃ marks, MarkedRun trio (fun _ _ => True) (fun _ => Storage.empty)
      [.electionTimeout 1,delivery 0,delivery 1,putting 1 1,delivery 1,.electionTimeout 2,
        delivery 4,delivery 4,putting 2 2,delivery 5,delivery 5,.heartbeatTimeout 2,delivery 5,
        delivery 7] (s,marks) ∧
      marks 2 3 = true ∧ (s.node 2).role = .leader ∧ NotResent trio (s,marks) := by
  obtain ⟨⟨s,seen⟩,hw,hmark,hrole⟩ : ∃ w, MarkedRun trio AnswersAhead (fun _ => Storage.empty)
      [.electionTimeout 1,delivery 0,delivery 1,putting 1 1,delivery 1,.electionTimeout 2,
        delivery 4,delivery 4,putting 2 2,delivery 5,delivery 5,.heartbeatTimeout 2,delivery 5,
        delivery 7] w ∧ w.2 2 3 = true ∧ (w.1.node 2).role = .leader :=
    Generic.Run.of_check (by decide) (by decide)
  have hs : Cluster.Run trio anyStep _ _ s := hw.forget fun _ _ _ => trivial
  obtain ⟨marks,hmarked,hiff⟩ := acknowledged_not_resent_iff hs
  obtain rfl : seen = marks := congrArg Prod.snd (hw.det hmarked)
  exact ⟨s,hs,seen,hmarked,hmark,hrole,hiff.mpr hw _ _ (List.prefix_refl _) hmarked⟩

/-- A second rejection of member 3 was on its way when the entries were sent again: it sets the
next index back to 1, and the success that follows sets the match index to 3. -/
theorem acknowledged_resent : ∃ s, Cluster.Run trio InOrder (fun _ => Storage.empty)
    [.electionTimeout 1,delivery 0,delivery 1,putting 1 1,delivery 1,.electionTimeout 2,
      delivery 4,delivery 4,putting 2 2,putting 2 3,delivery 5,delivery 6,delivery 6,
      .heartbeatTimeout 2,delivery 7,delivery 6,delivery 8] s ∧
    ∃ marks, MarkedRun trio (fun _ _ => True) (fun _ => Storage.empty)
      [.electionTimeout 1,delivery 0,delivery 1,putting 1 1,delivery 1,.electionTimeout 2,
        delivery 4,delivery 4,putting 2 2,putting 2 3,delivery 5,delivery 6,delivery 6,
        .heartbeatTimeout 2,delivery 7,delivery 6,delivery 8] (s,marks) ∧
      ¬NotResent trio (s,marks) := by
  obtain ⟨w,hw,hmark,hrole,hahead⟩ : ∃ w, MarkedRun trio (fun w => w.1.InOrder)
      (fun _ => Storage.empty)
      [.electionTimeout 1,delivery 0,delivery 1,putting 1 1,delivery 1,.electionTimeout 2,
        delivery 4,delivery 4,putting 2 2,putting 2 3,delivery 5,delivery 6,delivery 6,
        .heartbeatTimeout 2,delivery 7,delivery 6,delivery 8] w ∧
      w.2 2 3 = true ∧ (w.1.node 2).role = .leader ∧ ¬(w.1.node 2).AheadOf 3 :=
    Generic.Run.of_check (by decide) (by decide)
  refine ⟨w.1,hw.forget fun _ _ h => h,w.2,hw.mono fun _ _ _ => trivial,fun h => ?_⟩
  exact hahead (h 2 3 hrole (by decide) hmark).1

end Trio
end Cluster
end Foskv.Raft
