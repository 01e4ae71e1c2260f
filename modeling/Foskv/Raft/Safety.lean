import Foskv.Raft.Completeness

/-! What is applied at an index is the same everywhere. -/
namespace Foskv.Raft
open Generic
namespace Cluster

/-- Where half of `match_index_`, with the response, reaches an index above the commit index, a
majority of all members reaches this one or a later one with an entry of the leader's term. -/
def CountsOwn (C : ClusterConfig) (s : Cluster) (p : Packet) : Prop :=
  ∀ response ∈ p.body.appendResponse, (s.node p.receiver).Raises response →
    ∀ v ∈ ((s.node p.receiver).told response).matchIndex.values,
      (s.node p.receiver).commitIndex < v →
      HalfReached ((s.node p.receiver).told response).matchIndex.values v →
      ∃ w ∈ ((s.node p.receiver).told response).matchIndex.values, v ≤ w ∧
        C.members.length/2 + 1 ≤
          ((s.node p.receiver).told response).matchIndex.values.countP (w ≤ ·) ∧
        (s.node p.receiver).logs.termAt w = (s.node p.receiver).currentTerm

instance (C : ClusterConfig) (s : Cluster) (p : Packet) : Decidable (CountsOwn C s p) :=
  inferInstanceAs (Decidable (∀ response ∈ p.body.appendResponse, _ → ∀ v ∈ IndexMap.values _,
    _ → _ → ∃ w ∈ IndexMap.values _, _ ≤ _ ∧ _ ≤ _ ∧ _ = _))

/-- A heartbeat that raises the commit index raises it to where the logs of the two members
have an entry of the same term. -/
def CommitsMatching (s : Cluster) (p : Packet) : Prop :=
  ∀ request ∈ p.body.appendRequest, request.entries = [] →
    (s.node p.receiver).currentTerm ≤ request.term →
    (s.node p.receiver).commitIndex < request.leaderCommit →
      (s.node p.receiver).logs.termAt
          (min (s.node p.receiver).logs.lastLogIndex request.leaderCommit) =
        (s.node p.sender).logs.termAt
          (min (s.node p.receiver).logs.lastLogIndex request.leaderCommit)

instance (s : Cluster) (p : Packet) : Decidable (CommitsMatching s p) :=
  inferInstanceAs (Decidable (∀ request ∈ p.body.appendRequest, _ → _ → _ → _ = _))

/-- A step that compares terms, counts members and commits what the leader has. -/
def Governed (C : ClusterConfig) (s : Cluster) (p : Packet) : Prop :=
  Compared s p ∧ CountsOwn C s p ∧ CommitsMatching s p

instance (C : ClusterConfig) (s : Cluster) (p : Packet) : Decidable (Governed C s p) :=
  inferInstanceAs (Decidable (_ ∧ _ ∧ _))

theorem Governed.compared (C : ClusterConfig) (s : Cluster) (l : Label)
    (h : onDelivery (Governed C) s l) : onDelivery Compared s l := h.mono fun _ _ h => h.1

theorem Governed.orderly (C : ClusterConfig) (s : Cluster) (l : Label)
    (h : onDelivery (Governed C) s l) : onDelivery Orderly s l :=
  Compared.orderly s l (Governed.compared C s l h)

/-- The entries are the first ones of something committed. -/
def Certified (C : ClusterConfig) (s : Cluster) (entries : List LogEntry) : Prop :=
  entries = [] ∨ ∃ P t, Committed C s P t ∧ entries <+: P

namespace Certified
variable {C : ClusterConfig} {s s' : Cluster} {entries entries' : List LogEntry}

theorem mono (h : Certified C s entries) (hsub : s.history ⊆ s'.history)
    (hgrow : ∀ t, s.termLog t <+: s'.termLog t) : Certified C s' entries := by
  obtain h | ⟨P,t,hP,hpre⟩ := h
  · exact Or.inl h
  · exact Or.inr ⟨P,t,hP.mono hsub hgrow,hpre⟩

theorem of_isPrefix (h : Certified C s entries) (hpre : entries' <+: entries) :
    Certified C s entries' := by
  obtain rfl | ⟨P,t,hP,hP'⟩ := h
  · exact Or.inl (List.prefix_nil.mp hpre)
  · exact Or.inr ⟨P,t,hP,hpre.trans hP'⟩

/-- Each of the entries stands at its place in a committed log. -/
theorem getElem? (h : Certified C s entries) {i : ℕ} {e : LogEntry}
    (he : entries[i]? = some e) : ∃ P t, Committed C s P t ∧ P[i]? = some e := by
  obtain rfl | ⟨P,t,hP,hpre⟩ := h
  · simp at he
  · exact ⟨P,t,hP,getElem?_of_isPrefix hpre he⟩

end Certified

/-- Commit indexes, those on their way included, lie in the logs and stand for committed
entries, and only such entries were applied. -/
structure Secured [Protobuf] (C : ClusterConfig) (s : Cluster) : Prop where
  lastApplied : ∀ m, (s.node m).lastApplied = (s.node m).commitIndex
  commit_le : ∀ m, (s.node m).commitIndex ≤ (s.node m).logs.entries.length
  commit : ∀ m, Certified C s ((s.node m).logs.entries.take (s.node m).commitIndex)
  requests : ∀ p ∈ s.network, ∀ {callback request}, p.body = .appendEntries callback request →
    Holds s.termLog (s.node p.sender).logs.entries request.term request.leaderCommit ∧
    Certified C s ((s.node p.sender).logs.entries.take request.leaderCommit)
  applied : ∀ {m i request}, (m,.applied i request) ∈ s.history → 0 < i ∧
    ∃ P t e, Committed C s P t ∧ P[i - 1]? = some e ∧ Wire.parse e.command = some request

namespace Secured
variable [Protobuf] {C : ClusterConfig} {s s' : Cluster}

theorem init (C : ClusterConfig) (kv : MemberId → Storage) :
    Secured C (Cluster.init kv) where
  lastApplied _ := rfl
  commit_le _ := Nat.zero_le _
  commit _ := Or.inl rfl
  requests p hp := by cases hp
  applied h := by cases h

theorem lose (hc : Secured C s) (h : Loses s s') : Secured C s' := by
  have hL : s'.termLog = s.termLog := by rw [termLog, h.history]
  have hsub : s.history ⊆ s'.history := by simp [h.history]
  have hgrow : ∀ t, s.termLog t <+: s'.termLog t := by simp [hL]
  constructor
  · rw [h.node]
    exact hc.lastApplied
  · rw [h.node]
    exact hc.commit_le
  · intro m
    rw [h.node]
    exact (hc.commit m).mono hsub hgrow
  · intro p hp callback request hb
    obtain ⟨hholds,hcert⟩ := hc.requests p (h.network.subset hp) hb
    rw [hL, h.node]
    exact ⟨hholds,hcert.mono hsub hgrow⟩
  · intro m i request he
    rw [h.history] at he
    obtain ⟨hpos,P,t,e,hP,hget⟩ := hc.applied he
    exact ⟨hpos,P,t,e,hP.mono hsub hgrow,hget⟩

section Act
variable {l : Label} {m₀ : MemberId} {input : Input} {n' : RaftNode} {events : List Event}
  {rest : List Packet}

/-- A commit index that stays is still in order after the log has grown. -/
theorem commit_kept (hc : Secured C s) (h : Acts C s l m₀ input n' events rest s')
    (hstep : LogStep s m₀ input n' s'.termLog) :
    (s.node m₀).commitIndex ≤ n'.logs.entries.length ∧
      Certified C s' (n'.logs.entries.take (s.node m₀).commitIndex) := by
  have hle := hc.commit_le m₀
  refine ⟨hle.trans hstep.grows.length_le,?_⟩
  rw [take_of_isPrefix hstep.grows hle]
  exact (hc.commit m₀).mono h.history_subset hstep.termLog_grows

/-- Up to its new commit index a follower has what the leader had committed. -/
theorem take_followed (hc : Secured C s) (hs : Electoral C s) (hm : Matched s)
    (h : Acts C s l m₀ input n' events rest s') (hexact : onDelivery ExactAppend s l)
    (hok : onDelivery CommitsMatching s l) (hstep : LogStep s m₀ input n' s'.termLog)
    {sender : MemberId} {callback : Callback} {request : AppendEntriesRequest} {live : List ℕ}
    (hi : input = .receive sender (.appendEntries callback request) live)
    (hterm : (s.node m₀).currentTerm ≤ request.term)
    (hlog : request.entries ≠ [] → ∃ old, (s.node m₀).Trimmed request old ∧
      n'.logs.entries = old ++ request.entries)
    (hlt : (s.node m₀).commitIndex < request.leaderCommit) :
    n'.logs.entries.take (min n'.logs.entries.length request.leaderCommit) <+:
      (s.node sender).logs.entries.take request.leaderCommit := by
  have hp := h.packet_mem hi
  obtain ⟨hholds,-⟩ := hc.requests _ hp rfl
  have hlen : request.leaderCommit ≤ (s.node sender).logs.entries.length := hholds.1
  by_cases hne : request.entries = []
  · have hsame : n'.logs.entries = (s.node m₀).logs.entries := by
      have hlc := h.transition.logChange
      subst hi
      cases hlc with
      | kept hsame _ => exact hsame
      | received _ _ hentries _ _ => exact absurd hne hentries
    have hfirst := hs.addressed.firstIndex
    have hmatch := hok.apply (h.packet hi).1 request
      (Body.mem_appendRequest.mpr ⟨callback,rfl⟩) hne hterm hlt
    rw [hsame]
    rw [RaftLog.lastLogIndex_eq (hfirst m₀), RaftLog.termAt_eq (hfirst m₀) (Nat.min_le_left _ _),
      RaftLog.termAt_eq (hfirst sender) ((Nat.min_le_right _ _).trans hholds.1)] at hmatch
    have heq := ((hm.node m₀).of_isPrefix (List.take_prefix _ _)).eq_of_lastTerm
      ((hm.node sender).of_isPrefix (List.take_prefix _ _)) ?_ hmatch
    · rw [heq]
      exact List.take_prefix_take_left (Nat.min_le_right _ _)
    · rw [List.length_take, List.length_take]
      omega
  · obtain ⟨old,hold,hlog⟩ := hlog hne
    obtain ⟨rfl,-,-⟩ := h.trimmed hexact hi hne hold
    have hpre : n'.logs.entries <+: s.termLog request.term := by
      cases hstep with
      | kept hsame _ _ => simp [hlog, hne] at hsame
      | received hinput _ _ hpre _ _ =>
        cases hi.symm.trans hinput
        exact hpre
      | elected _ _ _ hsame _ => simp [hlog, hne] at hsame
      | queued _ _ _ _ _ _ _ hinput => exact absurd hi (hinput _ _ _)
    refine List.prefix_of_prefix_length_le ((List.take_prefix _ _).trans hpre) hholds.2 ?_
    rw [List.length_take, List.length_take]
    omega

/-- A leader raises its commit index to entries that are committed. -/
theorem commit_counted (hc : Secured C s) (hs : Electoral C s) (hm' : Matched s')
    (ha' : Acknowledged C s') (h : Acts C s l m₀ input n' events rest s')
    (hstep : LogStep s m₀ input n' s'.termLog) (hok : onDelivery (CountsOwn C) s l)
    {sender : MemberId} {response : AppendEntriesResponse} {live : List ℕ}
    (hi : input = .receive sender (.appendEntriesReply .appendEntries response) live)
    (hn : n' = (((s.node m₀).told response).commitMiddle live).1)
    (hraises : (s.node m₀).Raises response) : n'.commitIndex ≤ n'.logs.entries.length ∧
      Certified C s' (n'.logs.entries.take n'.commitIndex) := by
  obtain hle | hlt := le_or_gt n'.commitIndex (s.node m₀).commitIndex
  · obtain ⟨hlen,hcert⟩ := hc.commit_kept h hstep
    exact ⟨hle.trans hlen,hcert.of_isPrefix (List.take_prefix_take_left hle)⟩
  · have hself := h.node_self
    subst hn
    obtain ⟨w,-,hw,hcount,hterm⟩ := hok.apply (h.packet hi).1 response rfl hraises _
      (RaftNode.commitMiddle_mem_values _ _ live) hlt
      ((RaftNode.le_commitMiddle_iff _ _ _ live).mp le_rfl)
    have hpos : 0 < w := (Nat.zero_lt_of_lt hlt).trans_le hw
    have hcount' : C.members.length/2 + 1 ≤
        (s'.node m₀).matchIndex.values.countP (w ≤ ·) := by
      rw [hself]
      exact hcount
    have hwlen := (ha'.majority hpos hcount').1
    rw [hself] at hwlen
    have hP : Committed C s' ((s'.node m₀).logs.entries.take w) (s'.node m₀).currentTerm := by
      refine .of_count hm' ha' hpos hcount' ?_ ?_ <;> rw [hself]
      · exact hraises.2.1
      · rw [RaftLog.termAt_eq (hs.addressed.firstIndex m₀) hwlen] at hterm
        exact hterm
    rw [hself] at hP
    exact ⟨hw.trans hwlen,Or.inr ⟨_,_,hP,List.take_prefix_take_left hw⟩⟩

theorem commit_act (hc : Secured C s) (hs : Electoral C s) (hm : Matched s) (hm' : Matched s')
    (ha' : Acknowledged C s') (h : Acts C s l m₀ input n' events rest s')
    (hexact : onDelivery ExactAppend s l) (hown : onDelivery (CountsOwn C) s l)
    (hok : onDelivery CommitsMatching s l) (hstep : LogStep s m₀ input n' s'.termLog) :
    n'.lastApplied = n'.commitIndex ∧ n'.commitIndex ≤ n'.logs.entries.length ∧
      Certified C s' (n'.logs.entries.take n'.commitIndex) := by
  obtain ⟨hlen,hcert⟩ := hc.commit_kept h hstep
  have hla := hc.lastApplied m₀
  have hprog := h.transition.progress
  cases hprog with
  | kept commit applied _ _ | queued _ commit applied _ _ _ _ =>
    rw [applied, commit]
    exact ⟨hla,hlen,hcert⟩
  | followed hterm hlog hcommit hview _ =>
    have hfirst' := h.transition.firstIndex.trans (hs.addressed.firstIndex m₀)
    obtain ⟨happlied,-,hlen',-⟩ := RaftNode.follows hfirst' hla hlen hcommit hview
    refine ⟨happlied,hlen',?_⟩
    rw [RaftLog.lastLogIndex_eq hfirst'] at hcommit
    obtain hsame | ⟨hlt,hmin⟩ := hcommit
    · rw [hsame]
      exact hcert
    · have hsender := (hc.requests _ (h.packet_mem rfl) rfl).2
      rw [hmin]
      exact (hsender.mono h.history_subset hstep.termLog_grows).of_isPrefix
        (hc.take_followed hs hm h hexact hok hstep rfl hterm hlog hlt)
  | committed hraises => exact ⟨rfl,hc.commit_counted hs hm' ha' h hstep hown rfl rfl hraises⟩

theorem requests_act (hc : Secured C s) (hm : Matched s)
    (h : Acts C s l m₀ input n' events rest s') (hstep : LogStep s m₀ input n' s'.termLog)
    {p : Packet} (hp : p ∈ s'.network) {callback : Callback} {request : AppendEntriesRequest}
    (hb : p.body = .appendEntries callback request) :
    Holds s'.termLog (s'.node p.sender).logs.entries request.term request.leaderCommit ∧
      Certified C s' ((s'.node p.sender).logs.entries.take request.leaderCommit) := by
  have hlog := h.logs_grow hstep p.sender
  obtain hp | ⟨rfl,he⟩ := h.mem_network hp
  · obtain ⟨hholds,hcert⟩ := hc.requests p hp hb
    refine ⟨hholds.mono (hstep.termLog_grows _) hlog,?_⟩
    rw [take_of_isPrefix hlog hholds.1]
    exact hcert.mono h.history_subset hstep.termLog_grows
  · -- What a leader sends names its own commit index.
    have hown : (s.node p.sender).role = .leader →
        Holds s'.termLog (s'.node p.sender).logs.entries (s.node p.sender).currentTerm
          (s.node p.sender).commitIndex ∧
        Certified C s' ((s'.node p.sender).logs.entries.take (s.node p.sender).commitIndex) := by
      intro hrole
      refine ⟨(Holds.of_isPrefix ?_ (hc.commit_le _)).mono (hstep.termLog_grows _) hlog,?_⟩
      · rw [hm.leader _ hrole]
      · rw [h.node_self]
        exact (hc.commit_kept h hstep).2
    rw [hb] at he
    have ho := h.origin he
    cases ho with
    | reissued hrole _ _ _ => exact hown hrole
    | heartbeat hrole _ _ => exact hown hrole
    | replicated hrole _ _ _ _ => exact hown hrole

/-- A command that is applied now stands in the log at its index, up to the commit index. -/
theorem applied_logged (hc : Secured C s) (hq : Queued s) (hs : Electoral C s)
    (h : Acts C s l m₀ input n' events rest s') (hstep : LogStep s m₀ input n' s'.termLog)
    {i : ℕ} {request : InternalRaftRequest} (he : .applied i request ∈ events) :
    0 < i ∧ ∃ e, (n'.logs.entries.take n'.commitIndex)[i - 1]? = some e ∧
      Wire.parse e.command = some request := by
  have hprog := h.transition.progress
  have hfirst := h.transition.firstIndex.trans (hs.addressed.firstIndex m₀)
  have hlen := (hc.commit_kept h hstep).1
  have hla := hc.lastApplied m₀
  have ho := h.origin he
  cases ho with
  | read hread hmem =>
    have hle : (s.node m₀).lastApplied ≤ n'.commitIndex := by
      cases hprog with
      | kept commit _ _ _ => omega
      | followed _ _ hcommit hview _ =>
        exact hla.le.trans (RaftNode.follows hfirst hla hlen hcommit hview).2.1
    obtain ⟨-,rfl⟩ := hread.eq hfirst hle
    obtain ⟨e,hge,hget,hparse⟩ := RaftNode.mem_appliedEvents_iff.mp hmem
    refine ⟨by omega,e,?_,hparse⟩
    rw [List.getElem?_take] at hget ⊢
    split_ifs at hget with hi
    rw [List.getElem?_drop] at hget
    rw [if_pos (by omega), ← hget]
    congr 1
    omega
  | @applied sender response live done hraises hdone =>
    obtain ⟨htask,hle⟩ := RaftNode.mem_executed hdone
    obtain ⟨entry,hqueued⟩ := hq.tasks m₀ _ htask
    obtain ⟨hpos,hget,hcommand⟩ := hq.logged hqueued
    refine ⟨hpos,entry,?_,?_⟩
    · rw [List.getElem?_take, if_pos]
      · exact hget
      · change _ < ((s.node m₀).told response).matchIndex.middle
        omega
    · rw [hcommand, Wire.parse_serialize]

theorem act (hc : Secured C s) (hq : Queued s) (hs : Electoral C s) (hm : Matched s)
    (hm' : Matched s') (ha' : Acknowledged C s') (h : Acts C s l m₀ input n' events rest s')
    (hexact : onDelivery ExactAppend s l) (hown : onDelivery (CountsOwn C) s l)
    (hok : onDelivery CommitsMatching s l) (hstep : LogStep s m₀ input n' s'.termLog) :
    Secured C s' := by
  have hnew := hc.commit_act hs hm hm' ha' h hexact hown hok hstep
  constructor
  · intro m
    by_cases hi : m = m₀
    · subst hi
      rw [h.node_self]
      exact hnew.1
    · rw [h.node_ne hi]
      exact hc.lastApplied m
  · intro m
    by_cases hi : m = m₀
    · subst hi
      rw [h.node_self]
      exact hnew.2.1
    · rw [h.node_ne hi]
      exact hc.commit_le m
  · intro m
    by_cases hi : m = m₀
    · subst hi
      rw [h.node_self]
      exact hnew.2.2
    · rw [h.node_ne hi]
      exact (hc.commit m).mono h.history_subset hstep.termLog_grows
  · intro p hp callback request hb
    exact hc.requests_act hm h hstep hp hb
  · intro m i request he
    obtain he | ⟨rfl,he⟩ := h.mem_history.mp he
    · obtain ⟨hpos,P,t,e,hP,hget⟩ := hc.applied he
      exact ⟨hpos,P,t,e,hP.mono h.history_subset hstep.termLog_grows,hget⟩
    · obtain ⟨hpos,e,hget,hparse⟩ := hc.applied_logged hq hs h hstep he
      obtain ⟨P,t,hP,hget⟩ := hnew.2.2.getElem? hget
      exact ⟨hpos,P,t,e,hP,hget,hparse⟩

end Act
end Secured

/-- What two members, or one at two times, apply at one index is the same command. -/
def AppliesAgree (s : Cluster) : Prop :=
  ∀ m m' i request request', (m,.applied i request) ∈ s.history →
    (m',.applied i request') ∈ s.history → request = request'

section Runs
variable [Protobuf] {C : ClusterConfig} {s : Cluster} {kv : MemberId → Storage}
  {labels : List Label}

theorem Run.secured (h : Cluster.Run C (onDelivery (Governed C)) kv labels s) : Secured C s := by
  have hok := Governed.orderly C
  refine Run.invariant (.init C kv) (fun hc hl => hc.lose hl) ?_ h
  intro ls s l m input n' events rest s' hr hc hl ha
  obtain ⟨hstep,hm'⟩ := Run.logStep hok hr hl ha
  exact hc.act (Run.queued hok hr) (Run.electoral hr) (Run.matched hok hr) hm'
    (Run.acknowledged_act hok hr hl ha) ha (Orderly.exactAppend _ _ (hok _ _ hl))
    (onDelivery.mono (fun _ _ h => h.2.1) hl) (onDelivery.mono (fun _ _ h => h.2.2) hl) hstep

/-- State machine safety, in a run whose steps are governed. -/
theorem applies_agree (h : Cluster.Run C (onDelivery (Governed C)) kv labels s) :
    AppliesAgree s := by
  have ha := Run.acknowledged (Governed.orderly C) h
  have hc := Run.secured h
  intro m m' i request request' he he'
  obtain ⟨-,P,t,e,hP,hget,hparse⟩ := hc.applied he
  obtain ⟨-,P',t',e',hP',hget',hparse'⟩ := hc.applied he'
  have hsame : e = e' := by
    refine Option.some.inj ?_
    obtain hpre | hpre := (Run.elections (Governed.compared C) h).chosen_comparable
      (hP.chosen ha) (hP'.chosen ha)
    · rw [← getElem?_of_isPrefix hpre hget, hget']
    · rw [← hget, getElem?_of_isPrefix hpre hget']
  rw [hsame, hparse'] at hparse
  exact (Option.some.inj hparse).symm

end Runs

section Trio
attribute [local instance] Proto3.protobuf

theorem applies_agree_trio : ∃ s, Cluster.Run trio (onDelivery (Governed trio))
    (fun _ => Storage.empty) [.electionTimeout 1,delivery 0,delivery 1,putting 1 10,delivery 1,
      delivery 2,.heartbeatTimeout 1,delivery 2] s ∧
      (2,Event.applied 1 (.kvPut ⟨[1],[10],∅⟩)) ∈ s.history ∧ AppliesAgree s := by
  obtain ⟨s,hs,happlied⟩ : ∃ s, Cluster.Run trio (onDelivery (Governed trio))
      (fun _ => Storage.empty) [.electionTimeout 1,delivery 0,delivery 1,putting 1 10,delivery 1,
        delivery 2,.heartbeatTimeout 1,delivery 2] s ∧
      (2,Event.applied 1 (.kvPut ⟨[1],[10],∅⟩)) ∈ s.history :=
    Generic.Run.of_check (by decide) (by decide)
  exact ⟨s,hs,happlied,applies_agree hs⟩

/-- Member 2 commits its put with the answer of member 3, and its heartbeat makes member 1 apply
the put that member 1 had appended at this index as the leader before. -/
theorem applies_differ : ∃ s, Cluster.Run trio anyStep (fun _ => Storage.empty)
    [.electionTimeout 1,delivery 0,delivery 1,putting 1 10,.electionTimeout 2,delivery 4,
      delivery 4,putting 2 20,delivery 5,delivery 5,.heartbeatTimeout 2,delivery 5] s ∧
      ¬AppliesAgree s := by
  obtain ⟨s,hs,h₁,h₂⟩ : ∃ s, Cluster.Run trio anyStep (fun _ => Storage.empty)
      [.electionTimeout 1,delivery 0,delivery 1,putting 1 10,.electionTimeout 2,delivery 4,
        delivery 4,putting 2 20,delivery 5,delivery 5,.heartbeatTimeout 2,delivery 5] s ∧
      (1,Event.applied 1 (.kvPut ⟨[1],[10],∅⟩)) ∈ s.history ∧
      (2,Event.applied 1 (.kvPut ⟨[1],[20],∅⟩)) ∈ s.history :=
    Generic.Run.of_check (Generic.accepted_of_forall (fun _ _ => trivial) _ _) (by decide)
  exact ⟨s,hs,fun h => absurd (h 1 2 1 _ _ h₁ h₂) (by decide)⟩

end Trio
end Cluster
end Foskv.Raft
