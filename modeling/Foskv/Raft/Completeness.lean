import Foskv.Raft.Commit

/-! What later leaders have: entries that a majority acknowledged to the leader of their term. -/
namespace Foskv.Raft
open Generic

namespace RaftNode

/-- The request gets the node's vote. -/
def Grants (n : RaftNode) (request : RequestVoteRequest) : Prop :=
  (n.currentTerm < request.term ∨
    n.currentTerm = request.term ∧ n.canVote request.candidateId = true) ∧
    upToDateLog n.logs request = true

instance (n : RaftNode) (request : RequestVoteRequest) : Decidable (n.Grants request) :=
  inferInstanceAs (Decidable ((_ ∨ _ ∧ _) ∧ _))

theorem Observed.grants {n n' : RaftNode} {request : RequestVoteRequest}
    (h : n.Observed request.term n') (hfree : n'.canVote request.candidateId = true)
    (hlog : upToDateLog n.logs request = true) : n.Grants request := by
  obtain ⟨ht,rfl⟩ | ⟨ht,-⟩ := h
  · exact ⟨Or.inr ⟨ht,hfree⟩,hlog⟩
  · exact ⟨Or.inl ht,hlog⟩

end RaftNode

namespace Cluster

/-- A vote goes to a log whose last term is not smaller. -/
def ComparesTerms (s : Cluster) (p : Packet) : Prop :=
  ∀ request ∈ p.body.voteRequest, (s.node p.receiver).Grants request →
    (s.node p.receiver).logs.lastLogTerm ≤ request.lastLogTerm

instance (s : Cluster) (p : Packet) : Decidable (ComparesTerms s p) :=
  inferInstanceAs (Decidable (∀ request ∈ p.body.voteRequest, _ → _ ≤ _))

/-- Every vote went to a bid that is up to date, and winners start from their bid. -/
structure Bids (s : Cluster) : Prop where
  requests : ∀ p ∈ s.network, ∀ {request}, p.body = .requestVote request → ∃ bid,
    (p.sender,.voted request.term p.sender bid) ∈ s.history ∧
    request.lastLogIndex = bid.length ∧ request.lastLogTerm = lastTermOf bid
  votes : ∀ {m t c own}, (m,.voted t c own) ∈ s.history →
    ∃ bid, (c,.voted t c bid) ∈ s.history ∧ UpToDate LogEntry.term own bid
  elected : ∀ {a t l bid}, (a,.becameLeader t l) ∈ s.history →
    (a,.voted t a bid) ∈ s.history → bid <+: l

namespace Bids

theorem init (kv : MemberId → Storage) : Bids (Cluster.init kv) where
  requests p hp := by cases hp
  votes h := by cases h
  elected h := by cases h

theorem lose {s s' : Cluster} (hs : Bids s) (h : Loses s s') : Bids s' where
  requests p hp := by
    rw [h.history]
    exact hs.requests p (h.network.subset hp)
  votes := by
    rw [h.history]
    exact hs.votes
  elected := by
    rw [h.history]
    exact hs.elected

variable [Protobuf] {C : ClusterConfig} {s s' : Cluster} {l : Label} {m₀ : MemberId}
  {input : Input} {n' : RaftNode} {events : List Event} {rest : List Packet}

theorem act (hb : Bids s) (hs : Electoral C s) (ha : Acknowledged C s)
    (hok : onDelivery ComparesTerms s l) (h : Acts C s l m₀ input n' events rest s') :
    Bids s' where
  requests p hp request hbody := by
    obtain hp | ⟨rfl,he⟩ := h.mem_network hp
    · obtain ⟨bid,hbid,hlast⟩ := hb.requests p hp hbody
      exact ⟨bid,h.history_subset hbid,hlast⟩
    · rw [hbody] at he
      have hst := h.transition.standing
      have ho := h.origin he
      cases ho with
      | requestVote _ _ _ =>
        cases hst with
        | kept same => exact absurd same.term (Nat.succ_ne_self _)
        | started _ hevent =>
          have hfirst := hs.addressed.firstIndex p.sender
          exact ⟨_,h.mem_history.mpr (Or.inr ⟨rfl,hevent⟩),RaftLog.lastLogIndex_eq hfirst,
            RaftLog.lastLogTerm_eq _⟩
  votes {m t c own} hv := by
    obtain hv | ⟨rfl,he⟩ := h.mem_history.mp hv
    · obtain ⟨bid,hbid,hup⟩ := hb.votes hv
      exact ⟨bid,h.history_subset hbid,hup⟩
    · have ho := h.origin he
      cases ho with
      | ownVote _ => exact ⟨_,hv,le_rfl,le_rfl⟩
      | @voted sender request live _ hobs hfree hlog =>
        have hp := h.packet_mem rfl
        have hauthor : request.candidateId = sender := hs.addressed.author _ hp
        obtain ⟨bid,hbid,hlen,hterm⟩ := hb.requests _ hp rfl
        have hfirst := hs.addressed.firstIndex m
        have hcompare := hok.apply (h.packet rfl).1 request rfl (hobs.grants hfree hlog)
        rw [RaftLog.lastLogTerm_eq, hterm] at hcompare
        simp only [RaftNode.upToDateLog, RaftLog.lastLogIndex_eq hfirst, hlen,
          Bool.decide_or, Bool.decide_and, Bool.or_eq_true, Bool.and_eq_true,
          decide_eq_true_eq] at hlog
        rw [hauthor]
        exact ⟨bid,h.history_subset hbid,by omega,hcompare⟩
  elected {a t l bid} hl hv := by
    obtain hl | ⟨rfl,hl⟩ := h.mem_history.mp hl
    · obtain hv | ⟨rfl,hv⟩ := h.mem_history.mp hv
      · exact hb.elected hl hv
      · have hle := (hs.elected hl).2.1
        have ho := h.origin hv
        cases ho with
        | ownVote _ => omega
        | voted _ _ _ =>
          -- A request for votes never comes from the member that answers it.
          have hp := h.packet_mem rfl
          exact absurd (hs.addressed.author _ hp) (hs.addressed.other _ hp)
    · obtain hv | ⟨-,hv⟩ := h.mem_history.mp hv
      · have hlog := (h.origin hl).elected_log
        rw [hlog]
        exact ha.vote hv
      · have ho := h.origin hv
        have ho' := h.origin hl
        cases ho with
        | ownVote _ => cases ho'
        | voted _ _ _ => cases ho'

end Bids

/-- An orderly step that gives no vote to a log with a smaller last term. -/
def Compared (s : Cluster) (p : Packet) : Prop := Orderly s p ∧ ComparesTerms s p

instance (s : Cluster) (p : Packet) : Decidable (Compared s p) :=
  inferInstanceAs (Decidable (_ ∧ _))

theorem Compared.orderly (s : Cluster) (l : Label) (h : onDelivery Compared s l) :
    onDelivery Orderly s l := h.mono fun _ _ h => h.1

/-- Entries the leader of term `t` wrote, the last one in its own term, that a majority has
acknowledged to it. -/
structure Committed (C : ClusterConfig) (s : Cluster) (P : List LogEntry) (t : ℕ) : Prop where
  nonempty : P ≠ []
  last : lastTermOf P = t
  written : P <+: s.termLog t
  acked : ∃ Q, Majority C.members.toFinset Q ∧ ∀ m ∈ Q, Acked s.history m t P.length

namespace Committed
variable {C : ClusterConfig} {s s' : Cluster} {P : List LogEntry} {t : ℕ}

theorem mono (h : Committed C s P t) (hsub : s.history ⊆ s'.history)
    (hgrow : ∀ t, s.termLog t <+: s'.termLog t) : Committed C s' P t where
  nonempty := h.nonempty
  last := h.last
  written := h.written.trans (hgrow t)
  acked := by
    obtain ⟨Q,hQ,hack⟩ := h.acked
    exact ⟨Q,hQ,fun m hm => (hack m hm).mono hsub⟩

/-- The members of the majority still had these entries when they voted later. -/
theorem chosen (h : Committed C s P t) (ha : Acknowledged C s) :
    Chosen LogEntry.term s.termLog C.members.toFinset
      (fun m t own => ∃ c, (m,.voted t c own) ∈ s.history) P t where
  nonempty := h.nonempty
  last := h.last
  written := h.written
  held := by
    obtain ⟨Q,hQ,hack⟩ := h.acked
    refine ⟨Q,hQ,fun m hm t' own hv ht => ?_⟩
    obtain ⟨c,hv⟩ := hv
    obtain ⟨hlen,htake⟩ := (ha.acked (hack m hm)).2
    have hP : P = (s.node m).logs.entries.take P.length := by
      refine (List.prefix_of_prefix_length_le h.written htake ?_).eq_of_length ?_ <;>
        rw [List.length_take, Nat.min_eq_left hlen]
    refine List.prefix_of_prefix_length_le ?_ (ha.vote hv) (ha.before (hack m hm) hv ht)
    exact hP ▸ List.take_prefix _ _

/-- A leader whose map shows a majority at an entry of its own term. -/
theorem of_count (hm : Matched s) (ha : Acknowledged C s) {a : MemberId} {w : ℕ} (hw : 0 < w)
    (hcount : C.members.length/2 + 1 ≤ (s.node a).matchIndex.values.countP (w ≤ ·))
    (hrole : (s.node a).role = .leader)
    (hterm : lastTermOf ((s.node a).logs.entries.take w) = (s.node a).currentTerm) :
    Committed C s ((s.node a).logs.entries.take w) (s.node a).currentTerm := by
  obtain ⟨hlen,K,hK,hsound⟩ := ha.majority hw hcount
  have hlength : ((s.node a).logs.entries.take w).length = w := by
    rw [List.length_take, Nat.min_eq_left hlen]
  have hne : (s.node a).logs.entries.take w ≠ [] := by
    refine List.ne_nil_of_length_pos ?_
    omega
  refine ⟨hne,hterm,?_,K,hK,fun m hm' => ?_⟩
  · rw [← hm.leader a hrole]
    exact List.take_prefix _ _
  · obtain hzero | ⟨-,t,ht,hack,hholds⟩ := hsound m hm'
    · omega
    · -- An entry of the leader's term is in no log of an earlier term.
      have hle : (s.node a).currentTerm ≤ t := by
        rw [← hterm]
        exact lastTerm_le fun e he => hm.bounded t e (hholds.2.subset he)
      rw [hlength, ← le_antisymm ht hle]
      exact hack

end Committed

section Runs
variable [Protobuf] {C : ClusterConfig} {s : Cluster} {ok : Cluster → Label → Prop}
  {kv : MemberId → Storage} {labels : List Label}

theorem Run.bids (hok : ∀ s l, ok s l → onDelivery Compared s l)
    (h : Cluster.Run C ok kv labels s) : Bids s := by
  have hord : ∀ s l, ok s l → onDelivery Orderly s l := fun s l hl =>
    Compared.orderly s l (hok s l hl)
  refine Run.invariant (.init kv) (fun hb hl => hb.lose hl) ?_ h
  intro ls s l m input n' events rest s' hr hb hl ha
  exact hb.act (Run.electoral hr) (Run.acknowledged hord hr)
    (onDelivery.mono (fun _ _ h => h.2) (hok _ _ hl)) ha

/-- The elections of such a run. -/
theorem Run.elections (hok : ∀ s l, ok s l → onDelivery Compared s l)
    (h : Cluster.Run C ok kv labels s) :
    Elections LogEntry.term s.termLog C.members.toFinset
      (fun t log => ∃ a, (a,.becameLeader t log) ∈ s.history)
      (fun m t own => ∃ c, (m,.voted t c own) ∈ s.history) := by
  have hord : ∀ s l, ok s l → onDelivery Orderly s l := fun s l hl =>
    Compared.orderly s l (hok s l hl)
  have hm := Run.matched hord h
  have ha := Run.acknowledged hord h
  have hb := Run.bids hok h
  constructor
  · exact hm.log
  · exact hm.bounded
  · intro t ht
    obtain ⟨a,log,hl⟩ := hm.started t ht
    exact ⟨log,a,hl⟩
  · rintro t log ⟨a,hl⟩
    exact (hm.elected hl).1
  · rintro t log ⟨a,hl⟩
    exact (hm.elected hl).2
  · rintro t log ⟨a,hl⟩
    obtain ⟨⟨Q,hQ,hmaj⟩,-⟩ := h.electoral.elected hl
    refine ⟨Q,hmaj,fun m hmem => ?_⟩
    obtain ⟨own,hv⟩ := hQ.voted m hmem
    obtain ⟨bid,hbid,hup⟩ := hb.votes hv
    exact ⟨own,bid,⟨a,hv⟩,hup,hb.elected hl hbid⟩
  · rintro m t own ⟨c,hv⟩
    exact (hm.node m).of_isPrefix (ha.vote hv)

end Runs

/-- Every task in a queue was queued for an entry that its member's log still has. -/
structure Queued [Protobuf] (s : Cluster) : Prop where
  tasks : ∀ m, ∀ task ∈ (s.node m).stateMachine.tasks,
    ∃ entry, (m,.queued task entry) ∈ s.history
  logged : ∀ {m task entry}, (m,.queued task entry) ∈ s.history → 0 < task.index ∧
    (s.node m).logs.entries[task.index - 1]? = some entry ∧
    entry.command = Wire.serialize task.request

namespace Queued
variable [Protobuf] {C : ClusterConfig} {s s' : Cluster} {l : Label} {m₀ : MemberId}
  {input : Input} {n' : RaftNode} {events : List Event} {rest : List Packet}

theorem init (kv : MemberId → Storage) : Queued (Cluster.init kv) where
  tasks m task h := by cases h
  logged h := by cases h

theorem lose (hq : Queued s) (h : Loses s s') : Queued s' where
  tasks := by
    rw [h.node, h.history]
    exact hq.tasks
  logged := by
    rw [h.node, h.history]
    exact hq.logged

theorem act (hq : Queued s) (hs : Electoral C s) (h : Acts C s l m₀ input n' events rest s')
    (hgrow : (s.node m₀).logs.entries <+: n'.logs.entries) : Queued s' where
  tasks m task ht := by
    have hold : ∀ {task}, task ∈ (s.node m).stateMachine.tasks →
        ∃ entry, (m,.queued task entry) ∈ s'.history := fun ht =>
      (hq.tasks m _ ht).imp fun _ hmem => h.history_subset hmem
    by_cases hm : m = m₀
    · subst hm
      rw [h.node_self] at ht
      obtain ht | ⟨entry,hnew⟩ := h.transition.progress.mem_tasks ht
      · exact hold ht
      · exact ⟨entry,h.mem_history.mpr (Or.inr ⟨rfl,hnew⟩)⟩
    · rw [h.node_ne hm] at ht
      exact hold ht
  logged {m task entry} he := by
    obtain he | ⟨rfl,he⟩ := h.mem_history.mp he
    · obtain ⟨hpos,hget,hcommand⟩ := hq.logged he
      refine ⟨hpos,?_,hcommand⟩
      by_cases hm : m = m₀
      · subst hm
        rw [h.node_self]
        exact getElem?_of_isPrefix hgrow hget
      · rw [h.node_ne hm]
        exact hget
    · have ho := h.origin he
      rw [h.node_self]
      cases ho with
      | queued hrole hkept hlog =>
        rw [RaftLog.lastLogIndex_eq (hs.addressed.firstIndex m)] at hlog ⊢
        refine ⟨Nat.succ_pos _,?_,rfl⟩
        rw [hlog]
        simp

end Queued

/-- A success reply to a put or a delete. -/
def ConfirmsWrite (reply : InvokeTask) : Prop :=
  ∃ header, header.success = true ∧
    (reply.response = some (.put header) ∨ reply.response = some (.delete header))

/-- What a leader confirmed in a term for an entry of this term is in the log of every later
leader. -/
def RepliesKept (s : Cluster) : Prop :=
  ∀ m t task reply entry a, (m,.replied t task reply) ∈ s.history → ConfirmsWrite reply →
    (m,.queued task entry) ∈ s.history → entry.term = t → (s.node a).role = .leader →
    t < (s.node a).currentTerm → (s.node a).logs.entryAt task.index = .ok entry

/-- Where half of `match_index_`, with the response, reaches the index of a task, a majority of
all members does. -/
def CountsReplies (C : ClusterConfig) (s : Cluster) (p : Packet) : Prop :=
  ∀ response ∈ p.body.appendResponse, (s.node p.receiver).Raises response →
    ∀ task ∈ (s.node p.receiver).stateMachine.tasks,
      HalfReached ((s.node p.receiver).told response).matchIndex.values task.index →
      C.members.length/2 + 1 ≤
        ((s.node p.receiver).told response).matchIndex.values.countP (task.index ≤ ·)

instance (C : ClusterConfig) (s : Cluster) (p : Packet) : Decidable (CountsReplies C s p) :=
  inferInstanceAs (Decidable (∀ response ∈ p.body.appendResponse, _ →
    ∀ task ∈ (s.node p.receiver).stateMachine.tasks, _ → _ ≤ _))

/-- A step that compares terms and counts members before it replies. -/
def Confirmed (C : ClusterConfig) (s : Cluster) (p : Packet) : Prop :=
  Compared s p ∧ CountsReplies C s p

instance (C : ClusterConfig) (s : Cluster) (p : Packet) : Decidable (Confirmed C s p) :=
  inferInstanceAs (Decidable (_ ∧ _))

theorem Confirmed.compared (C : ClusterConfig) (s : Cluster) (l : Label)
    (h : onDelivery (Confirmed C) s l) : onDelivery Compared s l := h.mono fun _ _ h => h.1

theorem Confirmed.orderly (C : ClusterConfig) (s : Cluster) (l : Label)
    (h : onDelivery (Confirmed C) s l) : onDelivery Orderly s l :=
  Compared.orderly s l (Confirmed.compared C s l h)

/-- The entry of a reply in its own term is committed. -/
def Replied [Protobuf] (C : ClusterConfig) (s : Cluster) : Prop :=
  ∀ m t task reply, (m,.replied t task reply) ∈ s.history →
    ∃ entry, (m,.queued task entry) ∈ s.history ∧
      (entry.term = t → ∃ P, Committed C s P t ∧ P[task.index - 1]? = some entry)

section Replies
variable [Protobuf] {C : ClusterConfig} {s s' : Cluster} {l : Label} {m₀ : MemberId}
  {input : Input} {n' : RaftNode} {events : List Event} {rest : List Packet}

theorem Replied.init (kv : MemberId → Storage) : Replied C (Cluster.init kv) := by
  intro m t task reply he
  cases he

theorem Replied.lose (hr : Replied C s) (h : Loses s s') : Replied C s' := by
  intro m t task reply he
  rw [h.history] at he
  obtain ⟨entry,hqueued,hcommitted⟩ := hr m t task reply he
  refine ⟨entry,by rw [h.history]; exact hqueued,fun ht => ?_⟩
  obtain ⟨P,hP,hget⟩ := hcommitted ht
  refine ⟨P,hP.mono ?_ fun t => ?_,hget⟩
  · rw [h.history]
    exact List.Subset.refl _
  · rw [termLog, termLog, h.history]

theorem Replied.act (hr : Replied C s) (hq : Queued s) (hm' : Matched s')
    (ha' : Acknowledged C s') (hok : onDelivery (CountsReplies C) s l)
    (h : Acts C s l m₀ input n' events rest s') (hgrow : ∀ t, s.termLog t <+: s'.termLog t) :
    Replied C s' := by
  intro m t task reply he
  obtain he | ⟨rfl,he⟩ := h.mem_history.mp he
  · obtain ⟨entry,hqueued,hcommitted⟩ := hr m t task reply he
    refine ⟨entry,h.history_subset hqueued,fun ht => ?_⟩
    obtain ⟨P,hP,hget⟩ := hcommitted ht
    exact ⟨P,hP.mono h.history_subset hgrow,hget⟩
  · have ho := h.origin he
    have hself := h.node_self
    cases ho with
    | @replied sender response live done hraises hdone =>
      obtain ⟨htask,hle⟩ := RaftNode.mem_executed hdone
      obtain ⟨entry,hqueued⟩ := hq.tasks m _ htask
      obtain ⟨hpos,hget,-⟩ := hq.logged hqueued
      refine ⟨entry,h.history_subset hqueued,fun ht => ?_⟩
      have hhalf := (RaftNode.le_commitMiddle_iff _ _ _ live).mp hle
      have hcount := hok.apply (h.packet rfl).1 response rfl hraises done.1 htask hhalf
      obtain ⟨k,hk⟩ : ∃ k, done.1.index = k + 1 := ⟨done.1.index - 1,by omega⟩
      rw [hk, Nat.add_sub_cancel] at hget
      have hlast : lastTermOf ((s.node m).logs.entries.take (k + 1)) = entry.term :=
        lastTerm_take hget
      have hP : Committed C s' ((s'.node m).logs.entries.take done.1.index)
          (s'.node m).currentTerm := by
        refine .of_count hm' ha' hpos ?_ ?_ ?_ <;> rw [hself]
        · exact hcount
        · exact hraises.2.1
        · rw [hk]
          exact hlast.trans ht
      rw [hself] at hP
      refine ⟨_,hP,?_⟩
      rw [hk, Nat.add_sub_cancel, List.getElem?_take, if_pos (Nat.lt_succ_self k)]
      exact hget

variable {ok : Cluster → Label → Prop} {kv : MemberId → Storage} {labels : List Label}

theorem Run.queued (hok : ∀ s l, ok s l → onDelivery Orderly s l)
    (h : Cluster.Run C ok kv labels s) : Queued s := by
  refine Run.invariant (.init kv) (fun hq hl => hq.lose hl) ?_ h
  intro ls s l m input n' events rest s' hr hq hl ha
  exact hq.act (Run.electoral hr) ha (Run.logStep hok hr hl ha).1.grows

theorem Run.replied (h : Cluster.Run C (onDelivery (Confirmed C)) kv labels s) :
    Replied C s := by
  have hok := Confirmed.orderly C
  refine Run.invariant (.init kv) (fun hr hl => hr.lose hl) ?_ h
  intro ls s l m input n' events rest s' hr hp hl ha
  obtain ⟨hstep,hm'⟩ := Run.logStep hok hr hl ha
  exact hp.act (Run.queued hok hr) hm' (Run.acknowledged_act hok hr hl ha)
    (onDelivery.mono (fun _ _ h => h.2) hl) ha hstep.termLog_grows

/-- No later leader lacks a write that was confirmed, in a run in which leaders count members
and votes compare terms. -/
theorem replies_kept (h : Cluster.Run C (onDelivery (Confirmed C)) kv labels s) :
    RepliesKept s := by
  have hok := Confirmed.orderly C
  have hq := Run.queued hok h
  have hm := Run.matched hok h
  have E := Run.elections (Confirmed.compared C) h
  intro m t task reply entry a he _ hqueued ht hrole hlt
  obtain ⟨entry',hqueued',hcommitted⟩ := Run.replied h m t task reply he
  obtain ⟨hpos,hget,-⟩ := hq.logged hqueued
  obtain rfl : entry = entry' := Option.some.inj (hget.symm.trans (hq.logged hqueued').2.1)
  obtain ⟨P,hP,hentry⟩ := hcommitted ht
  obtain ⟨log,hlog⟩ := h.electoral.leader a hrole
  have hstart := E.complete (hP.chosen (Run.acknowledged hok h)) _ log hlt ⟨a,hlog⟩
  rw [RaftLog.entryAt_ok ((Run.addressed h).firstIndex a), hm.leader a hrole]
  exact ⟨hpos,getElem?_of_isPrefix (hstart.trans (hm.elected hlog).1) hentry⟩

end Replies

section Trio
attribute [local instance] Proto3.protobuf

theorem replies_kept_trio : ∃ s, Cluster.Run trio (onDelivery (Confirmed trio))
    (fun _ => Storage.empty) [.electionTimeout 1,delivery 0,delivery 1,putting 1 10,delivery 1,
      .deliver 2 .ok [7],.electionTimeout 2,delivery 3,delivery 3] s ∧
      ((s.node 2).role = .leader ∧ (s.node 2).currentTerm = 2) ∧ RepliesKept s := by
  obtain ⟨s,hs,hlead⟩ : ∃ s, Cluster.Run trio (onDelivery (Confirmed trio))
      (fun _ => Storage.empty) [.electionTimeout 1,delivery 0,delivery 1,putting 1 10,delivery 1,
        .deliver 2 .ok [7],.electionTimeout 2,delivery 3,delivery 3] s ∧
      ((s.node 2).role = .leader ∧ (s.node 2).currentTerm = 2) :=
    Generic.Run.of_check (by decide) (by decide)
  exact ⟨s,hs,hlead,replies_kept hs⟩

/-- Leader 1 confirms its second put when only the first has reached another member, which then
leads the next term. -/
theorem confirmed_write_lost : ∃ s, Cluster.Run trio anyStep (fun _ => Storage.empty)
    [.electionTimeout 1,delivery 0,delivery 1,putting 1 10,putting 1 20,delivery 1,
      .deliver 4 .ok [7],.electionTimeout 2,delivery 5,delivery 5] s ∧ ¬RepliesKept s := by
  obtain ⟨s,hs,hreply,hqueued,hrole,hterm,hlost⟩ : ∃ s, Cluster.Run trio anyStep
      (fun _ => Storage.empty)
      [.electionTimeout 1,delivery 0,delivery 1,putting 1 10,putting 1 20,delivery 1,
        .deliver 4 .ok [7],.electionTimeout 2,delivery 5,delivery 5] s ∧
      (1,Event.replied 1 ⟨2,7,0,.kvPut ⟨[1],[20],∅⟩⟩
        ⟨0,some (.put (produceRpcResponseHeader true .noError none))⟩) ∈ s.history ∧
      (1,Event.queued ⟨2,7,0,.kvPut ⟨[1],[20],∅⟩⟩ ⟨1,2,Wire.serialize
        (InternalRaftRequest.kvPut ⟨[1],[20],∅⟩)⟩) ∈ s.history ∧
      (s.node 2).role = .leader ∧ (s.node 2).currentTerm = 2 ∧
      (s.node 2).logs.entryAt 2 = .error .invalidLogIndex :=
    Generic.Run.of_check (Generic.accepted_of_forall (fun _ _ => trivial) _ _) (by decide)
  refine ⟨s,hs,fun h => ?_⟩
  have hkept := h 1 1 _ _ _ 2 hreply ⟨_,rfl,Or.inl rfl⟩ hqueued rfl hrole
    (by rw [hterm]; decide)
  rw [hlost] at hkept
  cases hkept

end Trio
end Cluster
end Foskv.Raft
