import Foskv.Raft.Commit
import Foskv.Raft.Deadlock

/-! Availability: while appends are exact, the last leader has a majority that would let it pass, so
that a leader can be elected from every state. -/
namespace Foskv.Raft
open Generic

namespace Passes
variable {own bid log : List LogEntry}

/-- A log lets every log pass that continues it. -/
theorem of_isPrefix (h : own <+: log) : Passes own log := by
  obtain hlt | heq := h.length_le.lt_or_eq
  · exact Or.inl hlt
  · rw [h.eq_of_length heq]
    exact Or.inr ⟨rfl,rfl⟩

/-- What lets a bid pass lets every log pass that continues the bid. -/
theorem trans_isPrefix (h : Passes own bid) (hpre : bid <+: log) : Passes own log := by
  have hle := hpre.length_le
  obtain hlt | ⟨hlen,hterm⟩ := h
  · exact Or.inl (hlt.trans_le hle)
  · obtain hlt | heq := hle.lt_or_eq
    · exact Or.inl (hlen ▸ hlt)
    · rw [← hpre.eq_of_length heq]
      exact Or.inr ⟨hlen,hterm⟩

end Passes

namespace Cluster

theorem mem_supporters_iff {C : ClusterConfig} {s : Cluster} (hs : Addressed C s)
    {a m : MemberId} : m ∈ supporters C s a ↔
      m ∈ C.members ∧ Passes (s.node m).logs.entries (s.node a).logs.entries := by
  rw [mem_supporters]
  exact and_congr_right fun _ => RaftNode.upToDateLog_iff (hs.firstIndex m)
    (RaftLog.lastLogIndex_eq (hs.firstIndex a)) (RaftLog.lastLogTerm_eq _)

/-- Some member became leader of the term. -/
def Elected (s : Cluster) (t : ℕ) : Prop := ∃ a l, (a,.becameLeader t l) ∈ s.history

/-- Leaders keep what they wrote, and whoever voted in a term has the log it voted with or one of a
leader since then. -/
structure Renewed (s : Cluster) : Prop where
  led : ∀ {a t l}, (a,.becameLeader t l) ∈ s.history → s.termLog t <+: (s.node a).logs.entries
  voters : ∀ {m t c own}, (m,.voted t c own) ∈ s.history → (s.node m).logs.entries = own ∨
    ∃ t' ≥ t, s.Elected t' ∧ (s.node m).logs.entries <+: s.termLog t'

namespace Renewed

theorem init (kv : MemberId → Storage) : Renewed (Cluster.init kv) where
  led h := by cases h
  voters h := by cases h

theorem lose {s s' : Cluster} (hs : Renewed s) (h : Loses s s') : Renewed s' := by
  have hL : s'.termLog = s.termLog := by rw [termLog, h.history]
  constructor
  · rw [hL, h.node, h.history]
    exact hs.led
  · intro m t c own hv
    rw [h.history] at hv
    rw [hL, h.node]
    refine (hs.voters hv).imp id fun hcont => ?_
    obtain ⟨t',ht,helected,hpre⟩ := hcont
    exact ⟨t',ht,by rwa [Elected, h.history],hpre⟩

section Act
variable [Protobuf] {C : ClusterConfig} {s s' : Cluster} {l : Label} {m₀ : MemberId}
  {input : Input} {n' : RaftNode} {events : List Event} {rest : List Packet}

theorem led_act (hr : Renewed s) (hs' : Electoral C s') (hsafe : ElectionSafe s')
    (hm' : Matched s') (h : Acts C s l m₀ input n' events rest s')
    (hstep : LogStep s m₀ input n' s'.termLog) {a : MemberId} {t : ℕ} {log : List LogEntry}
    (he : (a,.becameLeader t log) ∈ s'.history) :
    s'.termLog t <+: (s'.node a).logs.entries := by
  have hlead : t = (s'.node a).currentTerm → s'.termLog t <+: (s'.node a).logs.entries := by
    intro ht
    rw [hm'.leader a ((hs'.elected he).2.2 ht), ht]
  obtain hold | ⟨rfl,hnew⟩ := h.mem_history.mp he
  · obtain heq | ⟨ht,hrole⟩ := hstep.eq_or_leads t
    · rw [heq]
      exact (hr.led hold).trans (h.logs_grow hstep a)
    · obtain ⟨log',he'⟩ := hs'.leader m₀ (by rw [h.node_self]; exact hrole)
      rw [h.node_self, ← ht] at he'
      obtain rfl : a = m₀ := hsafe he he'
      exact hlead (by rw [h.node_self]; exact ht)
  · have ho := h.origin hnew
    refine hlead ?_
    rw [h.node_self]
    cases ho with
    | becameLeader _ _ _ _ => rfl

theorem voters_act (hr : Renewed s) (hs : Electoral C s) (hs' : Electoral C s') (hm : Matched s)
    (hm' : Matched s') (h : Acts C s l m₀ input n' events rest s')
    (hstep : LogStep s m₀ input n' s'.termLog) {m : MemberId} {t : ℕ} {c : MemberId}
    {own : List LogEntry} (hv : (m,.voted t c own) ∈ s'.history) :
    (s'.node m).logs.entries = own ∨
      ∃ t' ≥ t, s'.Elected t' ∧ (s'.node m).logs.entries <+: s'.termLog t' := by
  obtain hold | ⟨rfl,hnew⟩ := h.mem_history.mp hv
  · have hkept : (s'.node m).logs.entries = (s.node m).logs.entries →
        (s'.node m).logs.entries = own ∨
          ∃ t' ≥ t, s'.Elected t' ∧ (s'.node m).logs.entries <+: s'.termLog t' := by
      intro heq
      rw [heq]
      refine (hr.voters hold).imp id fun hcont => ?_
      obtain ⟨t',ht,⟨a,log,helected⟩,hpre⟩ := hcont
      exact ⟨t',ht,⟨a,log,h.history_subset helected⟩,hpre.trans (hstep.termLog_grows t')⟩
    by_cases hm₀ : m = m₀
    · subst hm₀
      have hle := (hs.voted_le hold).trans (h.term_le m)
      cases hstep with
      | kept hlog _ _ => exact hkept (by rw [h.node_self, hlog])
      | elected _ _ _ hlog _ => exact hkept (by rw [h.node_self, hlog])
      | @received sender callback request live hinput hterm _ hpre hL _ =>
        obtain ⟨log,hsender⟩ := hm.sender _ (h.packet_mem hinput) rfl
        rw [h.node_self] at hle ⊢
        rw [hL]
        exact Or.inr ⟨request.term,hterm ▸ hle,⟨_,log,h.history_subset hsender⟩,hpre⟩
      | queued _ hrole _ _ _ _ _ _ =>
        rw [← h.node_self] at hrole
        obtain ⟨log,hlog⟩ := hs'.leader m hrole
        exact Or.inr ⟨_,hle,⟨m,log,hlog⟩,by rw [hm'.leader m hrole]⟩
    · exact hkept (by rw [h.node_ne hm₀])
  · left
    rw [h.node_self]
    have ho := h.origin hnew
    cases ho with
    | ownVote _ => rfl
    | voted hobs _ _ =>
      obtain ⟨r,v,vf,p,rfl⟩ := hobs.eq
      rfl

theorem act (hr : Renewed s) (hs : Electoral C s) (hs' : Electoral C s') (hsafe : ElectionSafe s')
    (hm : Matched s) (hm' : Matched s') (h : Acts C s l m₀ input n' events rest s')
    (hstep : LogStep s m₀ input n' s'.termLog) : Renewed s' where
  led he := hr.led_act hs' hsafe hm' h hstep he
  voters hv := hr.voters_act hs hs' hm hm' h hstep hv

end Act
end Renewed

section Runs
variable [Protobuf] {C : ClusterConfig} {s : Cluster} {kv : MemberId → Storage}
  {labels : List Label}

theorem Run.renewed {ok : Cluster → Label → Prop} (hok : ∀ s l, ok s l → onDelivery Orderly s l)
    (h : Cluster.Run C ok kv labels s) : Renewed s := by
  refine Run.invariant (.init kv) (fun hs hl => hs.lose hl) ?_ h
  intro ls s l m input n' events rest s' hr hs hl ha
  obtain ⟨hstep,hm'⟩ := Run.logStep hok hr hl ha
  exact hs.act (Run.electoral hr) ((Run.electoral hr).act ha) (Run.electionSafe_act hok hr hl ha)
    (Run.matched hok hr) hm' ha hstep

omit [Protobuf] in
/-- The last term that had a leader. -/
theorem Electoral.exists_last (hs : Electoral C s) {t : ℕ} (ht : s.Elected t) :
    ∃ T, s.Elected T ∧ ∀ t, s.Elected t → t ≤ T := by
  classical
  have hbound : ∀ t, s.Elected t →
      t ≤ C.members.toFinset.sup fun m => (s.node m).currentTerm := by
    rintro t ⟨a,l,he⟩
    obtain ⟨⟨Q,hQ,-⟩,hle,-⟩ := hs.elected he
    exact hle.trans (Finset.le_sup (f := fun m => (s.node m).currentTerm) (hQ.members hQ.self))
  refine ⟨Nat.findGreatest s.Elected _,Nat.findGreatest_spec (hbound t ht) ht,fun t ht => ?_⟩
  exact Nat.le_findGreatest (hbound t ht) ht

/-- The last leader has the votes of a majority, should it ask for them. -/
theorem Run.last_supported {ok : Cluster → Label → Prop}
    (hok : ∀ s l, ok s l → onDelivery Orderly s l) (h : Cluster.Run C ok kv labels s)
    {a : MemberId} {T : ℕ} {log : List LogEntry} (he : (a,.becameLeader T log) ∈ s.history)
    (hlast : ∀ t, s.Elected t → t ≤ T) : Majority C.members.toFinset (supporters C s a) := by
  have hs := Run.electoral h
  have hr := Run.renewed hok h
  obtain ⟨⟨Q,hQ,hmajority⟩,-⟩ := hs.elected he
  refine hmajority.superset (fun m hm => ?_)
    fun m hm => List.mem_toFinset.mpr (mem_supporters.mp hm).1
  refine (mem_supporters_iff hs.addressed).mpr ⟨List.mem_toFinset.mp (hQ.members hm),?_⟩
  obtain ⟨own,hv⟩ := hQ.voted m hm
  obtain rfl | ⟨t,ht,helected,hpre⟩ := hr.voters hv
  · obtain ⟨bid,hbid,hpass⟩ := (Run.polls h).votes hv
    exact hpass.trans_isPrefix ((Run.acknowledged hok h).vote hbid)
  · obtain rfl : t = T := le_antisymm (hlast t helected) ht
    exact .of_isPrefix (hpre.trans (hr.led he))

/-- Some member always has such a majority, and no leader had a larger term. -/
theorem Run.exists_supported {ok : Cluster → Label → Prop}
    (hok : ∀ s l, ok s l → onDelivery Orderly s l) (h : Cluster.Run C ok kv labels s)
    (hne : C.members ≠ []) :
    ∃ a ∈ C.members, Majority C.members.toFinset (supporters C s a) ∧
      ∀ t, s.Elected t → t ≤ (s.node a).currentTerm := by
  have hs := Run.electoral h
  by_cases hany : ∃ t, s.Elected t
  · obtain ⟨t,ht⟩ := hany
    obtain ⟨T,⟨a,log,he⟩,hlast⟩ := hs.exists_last ht
    obtain ⟨⟨Q,hQ,-⟩,hle,-⟩ := hs.elected he
    exact ⟨a,List.mem_toFinset.mp (hQ.members hQ.self),Run.last_supported hok h he hlast,
      fun t ht => (hlast t ht).trans hle⟩
  · -- Without a leader so far no log has entries, and every member passes everywhere.
    have hm := Run.matched hok h
    have hempty : ∀ m, (s.node m).logs.entries = [] := by
      intro m
      by_contra hentries
      obtain ⟨a,log,he⟩ := hm.started _ fun hnil => hentries
        (List.prefix_nil.mp (hnil ▸ (hm.node m).prefix_lastTerm hentries))
      exact hany ⟨_,a,log,he⟩
    obtain ⟨a,ha⟩ := List.exists_mem_of_ne_nil _ hne
    have hall : supporters C s a = C.members.toFinset := by
      ext m
      rw [mem_supporters_iff hs.addressed, List.mem_toFinset, hempty m, hempty a]
      exact and_iff_left (Or.inr ⟨rfl,rfl⟩)
    have hpos : 0 < C.members.toFinset.card :=
      Finset.card_pos.mpr ⟨a,List.mem_toFinset.mpr ha⟩
    refine ⟨a,ha,?_,fun t ht => absurd ⟨t,ht⟩ hany⟩
    rw [hall]
    exact ⟨Finset.Subset.refl _,by omega⟩

omit [Protobuf] in
/-- Elections of new terms keep to one vote per term, and append nothing. -/
theorem admits_orderly : Admits (onDelivery Orderly) where
  timeout _ _ := trivial
  request {s k p request} hk hbody hlt q hq := by
    obtain rfl := Option.some.inj (hk.symm.trans hq)
    rw [Orderly, SingleVote, ExactAppend, hbody]
    refine ⟨fun r hr hterm => ?_,fun r hr => ?_⟩
    · obtain rfl : request = r := by simpa [Body.voteRequest] using hr
      exact absurd hterm hlt.ne
    · simp [Body.appendRequest] at hr
  reply {s k p response} hk hbody q hq := by
    obtain rfl := Option.some.inj (hk.symm.trans hq)
    rw [Orderly, SingleVote, ExactAppend, hbody]
    exact ⟨fun r hr => by simp [Body.voteRequest] at hr,
      fun r hr => by simp [Body.appendRequest] at hr⟩

/-- Every orderly run can be continued, in order, to a state in which a member leads whose term no
member exceeds. -/
theorem Run.exists_leads (h : Cluster.Run C (onDelivery Orderly) kv labels s)
    (hlen : 2 ≤ C.members.length) :
    ∃ ls t a, Generic.Run (step C) (onDelivery Orderly) s ls t ∧ a ∈ C.members ∧
      Leads C t a := by
  have hs := Run.electoral h
  obtain ⟨a,ha,hmajority,hlast⟩ := Run.exists_supported (fun _ _ h => h) h
    (List.ne_nil_of_length_pos (by omega))
  by_cases hrole : (s.node a).role = .leader
  · by_cases hterm : ∀ m ∈ C.members, (s.node m).currentTerm ≤ (s.node a).currentTerm
    · exact ⟨[],s,a,.nil,ha,hrole,hterm⟩
    push Not at hterm
    obtain ⟨b,hb,hlt⟩ := hterm
    have hnot : (s.node b).role ≠ .leader := by
      intro hlead
      obtain ⟨log,he⟩ := hs.leader b hlead
      exact absurd (hlast _ ⟨b,log,he⟩) (Nat.not_le_of_lt hlt)
    obtain ⟨ls,t,hrun,hfollower,hlogs⟩ := exists_deposed admits_orderly ha hb hnot hlt
    have hsame : supporters C t a = supporters C s a := by
      ext m
      rw [mem_supporters_iff hs.addressed, mem_supporters_iff (Run.addressed (h.append hrun)),
        hlogs, hlogs]
    obtain ⟨us,u,hu,hlead⟩ := Cluster.exists_leads admits_orderly hlen ha (by simp [hfollower])
      (hsame ▸ hmajority)
    exact ⟨_,u,a,hrun.append hu,ha,hlead⟩
  · obtain ⟨ls,t,hrun,hlead⟩ := Cluster.exists_leads admits_orderly hlen ha hrole hmajority
    exact ⟨ls,t,a,hrun,ha,hlead⟩

/-- No orderly run of several members gets stuck: the last leader keeps the votes of a majority, and
some continuation in order elects a member whose term no member exceeds. -/
theorem always_electable (h : Cluster.Run C (onDelivery Orderly) kv labels s)
    (hlen : 2 ≤ C.members.length) :
    (∃ ls t a, Generic.Run (step C) (onDelivery Orderly) s ls t ∧ a ∈ C.members ∧
      Leads C t a) ∧
    ∀ a T log, (a,.becameLeader T log) ∈ s.history → (∀ t, s.Elected t → t ≤ T) →
      Majority C.members.toFinset (supporters C s a) :=
  ⟨Run.exists_leads h hlen,fun _ _ _ he hlast => Run.last_supported (fun _ _ h => h) h he hlast⟩

end Runs

section Trio
attribute [local instance] Proto3.protobuf

/-- Member 1 leads and puts a value that only it has when member 2 asks for votes in term 2. -/
theorem always_electable_trio : ∃ s, Cluster.Run trio (onDelivery Orderly)
    (fun _ => Storage.empty) [.electionTimeout 1,delivery 0,delivery 1,putting 1 10,
      .electionTimeout 2,delivery 3] s ∧ (∀ m ∈ trio.members, (s.node m).role ≠ .leader) ∧
    (∃ ls t a, Generic.Run (step trio) (onDelivery Orderly) s ls t ∧ a ∈ trio.members ∧
      Leads trio t a) ∧ Majority trio.members.toFinset (supporters trio s 1) := by
  obtain ⟨s,hs,hrole,hled,hlast⟩ : ∃ s, Cluster.Run trio (onDelivery Orderly)
      (fun _ => Storage.empty) [.electionTimeout 1,delivery 0,delivery 1,putting 1 10,
        .electionTimeout 2,delivery 3] s ∧ (∀ m ∈ trio.members, (s.node m).role ≠ .leader) ∧
      (1,.becameLeader 1 []) ∈ s.history ∧ s.history.filterMap (fun
        | (_,.becameLeader t _) => some t
        | _ => none) = [1] :=
    Generic.Run.of_check (by decide) (by decide)
  obtain ⟨hleads,hsupported⟩ := always_electable hs (by decide)
  refine ⟨s,hs,hrole,hleads,hsupported 1 1 [] hled ?_⟩
  rintro t ⟨a,log,he⟩
  have hmem : t ∈ [1] := hlast ▸ List.mem_filterMap.mpr ⟨_,he,rfl⟩
  exact (List.mem_singleton.mp hmem).le

end Trio
end Cluster
end Foskv.Raft
