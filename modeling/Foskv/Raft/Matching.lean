import Foskv.Raft.Logs

/-! Log matching, for runs in which every append goes to the very end of a log that agrees. -/
namespace Foskv.Raft
open Generic

/-- How an event extends the logs the leaders wrote. -/
def record (L : ℕ → List LogEntry) : Event → ℕ → List LogEntry
  | .becameLeader term log => Function.update L term log
  | .queued _ entry => Function.update L entry.term (L entry.term ++ [entry])
  | _ => L

/-- The log of the leader of each term: what it started from and what it appended. -/
def termLog (history : List (MemberId × Event)) : ℕ → List LogEntry :=
  history.foldl (fun L x => record L x.2) fun _ => []

theorem foldl_record_silent {events : List Event} (h : RaftNode.Silent events)
    (L : ℕ → List LogEntry) : events.foldl record L = L := by
  induction events generalizing L with
  | nil => rfl
  | cons e es ih =>
    obtain ⟨⟨hlead,hqueue⟩,hes⟩ := RaftNode.silent_cons.mp h
    have he : record L e = L := by
      cases e with
      | becameLeader term log => exact absurd rfl (hlead term log)
      | queued task entry => exact absurd rfl (hqueue task entry)
      | _ => rfl
    rw [List.foldl_cons, he]
    exact ih hes L

theorem termLog_append (history : List (MemberId × Event)) (m : MemberId)
    (events : List Event) :
    termLog (history ++ events.map (m,·)) = events.foldl record (termLog history) := by
  rw [termLog, List.foldl_append, List.foldl_map]
  rfl

namespace Cluster

abbrev termLog (s : Cluster) : ℕ → List LogEntry := Raft.termLog s.history

/-- A request with entries that is not stale and whose `prev_log_index` lies in the log finds
the log ending there, with the term it names. -/
def ExactAppend (s : Cluster) (p : Packet) : Prop :=
  ∀ request ∈ p.body.appendRequest, request.entries ≠ [] →
    (s.node p.receiver).currentTerm ≤ request.term →
    request.prevLogIndex ≤ (s.node p.receiver).logs.lastLogIndex →
      request.prevLogIndex = (s.node p.receiver).logs.lastLogIndex ∧
      (s.node p.receiver).logs.termAt request.prevLogIndex = request.prevLogTerm

instance (s : Cluster) (p : Packet) : Decidable (ExactAppend s p) :=
  inferInstanceAs (Decidable (∀ request ∈ p.body.appendRequest, _ → _ → _ → _ ∧ _))

/-- One vote per member and term, and appends at the end only. -/
def Orderly (s : Cluster) (p : Packet) : Prop := SingleVote s p ∧ ExactAppend s p

instance (s : Cluster) (p : Packet) : Decidable (Orderly s p) :=
  inferInstanceAs (Decidable (_ ∧ _))

theorem onDelivery.mono {P Q : Cluster → Packet → Prop} (h : ∀ s p, P s p → Q s p) {s : Cluster}
    {l : Label} (hP : onDelivery P s l) : onDelivery Q s l := by
  cases l with
  | deliver k io live => exact fun p hp => h s p (hP p hp)
  | _ => trivial

theorem Orderly.singleVote (s : Cluster) (l : Label) (h : onDelivery Orderly s l) :
    onDelivery SingleVote s l := h.mono fun _ _ h => h.1

theorem Orderly.exactAppend (s : Cluster) (l : Label) (h : onDelivery Orderly s l) :
    onDelivery ExactAppend s l := h.mono fun _ _ h => h.2

/-- A request that continues the log of the leader of its term. -/
def Continues (L : ℕ → List LogEntry) (request : AppendEntriesRequest) : Prop :=
  ∃ before, before ++ request.entries <+: L request.term ∧
    before.length = request.prevLogIndex ∧ lastTermOf before = request.prevLogTerm

end Cluster

namespace RaftNode

/-- Who sends a request is the leader of its term, and the entries it sends continue what its own
log has before them. -/
theorem Origin.continues [Protobuf] {cfg : RaftConfig} {n n' : RaftNode} {input : Input}
    {receiver : MemberId} {callback : Callback} {request : AppendEntriesRequest}
    (h : Origin cfg n input n' (.sent receiver (.appendEntries callback request)))
    (hfirst : n.logs.firstIndex = 1) :
    (n.role = .leader ∧ n'.role = .leader ∧ n.currentTerm = request.term ∧
        n'.currentTerm = request.term) ∧
      (request.entries ≠ [] → Cluster.Continues (fun _ => n'.logs.entries) request) := by
  cases h with
  | @reissued _ nextIndex hrole _ _ hnext =>
    refine ⟨⟨hrole,hrole,rfl,rfl⟩,fun _ => ⟨n.logs.entries.take (nextIndex - 1),?_,?_,?_⟩⟩
    · rw [reissueRequest_entries hfirst hnext.1, List.take_append_drop]
    · rw [RaftLog.lastLogIndex_eq hfirst] at hnext
      simp only [List.length_take, reissueRequest]
      omega
    · rw [RaftLog.lastLogIndex_eq hfirst] at hnext
      exact (RaftLog.termAt_eq hfirst (by omega)).symm
  | heartbeat hrole _ _ => exact ⟨⟨hrole,hrole,rfl,rfl⟩,fun hne => absurd rfl hne⟩
  | @replicated _ _ _ entry q hrole hkept _ _ hlog =>
    refine ⟨⟨hrole,hkept.1,rfl,hkept.2⟩,fun _ => ⟨n.logs.entries,?_,
      (extended_prevLogIndex hfirst entry q).symm,(extended_prevLogTerm entry q).symm⟩⟩
    rw [hlog]

end RaftNode

namespace Cluster

/-- Every log is anchored in the logs of the leaders. -/
structure Matched (s : Cluster) : Prop where
  leader : ∀ m, (s.node m).role = .leader →
    (s.node m).logs.entries = s.termLog (s.node m).currentTerm
  node : ∀ m, Anchored LogEntry.term s.termLog (s.node m).logs.entries
  log : ∀ t, Anchored LogEntry.term s.termLog (s.termLog t)
  bounded : ∀ t, ∀ e ∈ s.termLog t, e.term ≤ t
  node_le : ∀ m, ∀ e ∈ (s.node m).logs.entries, e.term ≤ (s.node m).currentTerm
  started : ∀ t, s.termLog t ≠ [] → ∃ a l, (a,.becameLeader t l) ∈ s.history
  elected : ∀ {a t l}, (a,.becameLeader t l) ∈ s.history →
    l <+: s.termLog t ∧ ∀ e ∈ l, e.term < t
  sender : ∀ p ∈ s.network, ∀ {callback request}, p.body = .appendEntries callback request →
    ∃ l, (p.sender,.becameLeader request.term l) ∈ s.history
  requests : ∀ p ∈ s.network, ∀ {callback request}, p.body = .appendEntries callback request →
    request.entries ≠ [] → Continues s.termLog request

namespace Matched

theorem init (kv : MemberId → Storage) : Matched (Cluster.init kv) where
  leader m h := by cases h
  node m := .nil
  log t := .nil
  bounded t e he := by cases he
  node_le m e he := by cases he
  started t h := absurd rfl h
  elected h := by cases h
  sender p hp := by cases hp
  requests p hp := by cases hp

theorem lose {s s' : Cluster} (hs : Matched s) (h : Loses s s') : Matched s' := by
  have hL : s'.termLog = s.termLog := by rw [termLog, h.history]
  constructor
  · rw [hL, h.node]
    exact hs.leader
  · rw [hL, h.node]
    exact hs.node
  · rw [hL]
    exact hs.log
  · rw [hL]
    exact hs.bounded
  · rw [h.node]
    exact hs.node_le
  · rw [hL, h.history]
    exact hs.started
  · rw [hL, h.history]
    exact hs.elected
  · intro p hp
    rw [h.history]
    exact hs.sender p (h.network.subset hp)
  · intro p hp
    rw [hL]
    exact hs.requests p (h.network.subset hp)

end Matched

/-- How a step of one member changes its log and the logs of the leaders, when entries are only
ever put at the end. -/
inductive LogStep (s : Cluster) (m : MemberId) (input : Input) (n' : RaftNode)
    (L' : ℕ → List LogEntry) : Prop
  | kept (hlog : n'.logs.entries = (s.node m).logs.entries) (h : L' = s.termLog)
      (hrole : n'.role = .leader → (s.node m).role = .leader ∧
        n'.currentTerm = (s.node m).currentTerm)
  | received {sender callback request live}
      (hinput : input = .receive sender (.appendEntries callback request) live)
      (hterm : n'.currentTerm = request.term)
      (hlog : n'.logs.entries = (s.node m).logs.entries ++ request.entries)
      (hpre : n'.logs.entries <+: s.termLog request.term) (h : L' = s.termLog)
      (hrole : n'.role ≠ .leader)
  | elected (hrole : n'.role = .leader) (hnew : s.termLog n'.currentTerm = [])
      (hterm : n'.currentTerm = (s.node m).currentTerm)
      (hlog : n'.logs.entries = (s.node m).logs.entries)
      (h : L' = Function.update s.termLog n'.currentTerm n'.logs.entries)
  | queued (entry : LogEntry) (hrole : n'.role = .leader) (hrole₀ : (s.node m).role = .leader)
      (hterm : n'.currentTerm = (s.node m).currentTerm) (hentry : entry.term = n'.currentTerm)
      (hlog : n'.logs.entries = (s.node m).logs.entries ++ [entry])
      (h : L' = Function.update s.termLog n'.currentTerm (s.termLog n'.currentTerm ++ [entry]))
      (hinput : ∀ sender body live, input ≠ .receive sender body live)

section Steps
variable [Protobuf] {C : ClusterConfig} {s s' : Cluster} {l : Label} {m₀ : MemberId}
  {input : Input} {n' : RaftNode} {events : List Event} {rest : List Packet}

theorem Acts.termLog_eq (h : Acts C s l m₀ input n' events rest s') :
    s'.termLog = events.foldl record s.termLog := by
  rw [termLog, h.history, termLog_append]

/-- No one else has led the term of a winning candidate. -/
theorem Acts.termLog_nil (h : Acts C s l m₀ input n' events rest s') (hs : Electoral C s)
    (hm : Matched s) (hsafe : ElectionSafe s') (hrole : (s.node m₀).role = .candidate)
    {log : List LogEntry} (he : .becameLeader (s.node m₀).currentTerm log ∈ events) :
    s.termLog (s.node m₀).currentTerm = [] := by
  by_contra hne
  obtain ⟨a,l,ha⟩ := hm.started _ hne
  have ham : a = m₀ := hsafe (h.history_subset ha) (h.mem_history.mpr (Or.inr ⟨rfl,he⟩))
  subst ham
  have hlead := (hs.elected ha).2.2 rfl
  rw [hrole] at hlead
  cases hlead

theorem Acts.electionSafe (h : Acts C s l m₀ input n' events rest s') (hsafe : ElectionSafe s') :
    ElectionSafe s :=
  fun ha hb => hsafe (h.history_subset ha) (h.history_subset hb)

/-- Only a leader is leader after a step that records no election. -/
theorem Acts.role_of_silent (h : Acts C s l m₀ input n' events rest s')
    (hsilent : RaftNode.Silent events) (hrole : n'.role = .leader) :
    (s.node m₀).role = .leader ∧ n'.currentTerm = (s.node m₀).currentTerm := by
  obtain hled | hevent := h.transition.leads hrole
  · exact hled
  · exact absurd rfl ((hsilent _ hevent).1 _ _)

/-- A leader accepts no entries in its own term. -/
theorem Matched.not_received (hm : Matched s) (hs : Electoral C s) (hsafe : ElectionSafe s)
    (h : Acts C s l m₀ input n' events rest s') {sender : MemberId} {callback : Callback}
    {request : AppendEntriesRequest} {live : List ℕ}
    (hi : input = .receive sender (.appendEntries callback request) live)
    (hrole : (s.node m₀).role = .leader) : (s.node m₀).currentTerm ≠ request.term := by
  intro hterm
  have hp := h.packet_mem hi
  obtain ⟨l,hl⟩ := hm.sender _ hp rfl
  obtain ⟨l',hl'⟩ := hs.leader m₀ hrole
  rw [hterm] at hl'
  exact hs.addressed.other _ hp (hsafe hl' hl)

/-- Under the condition on appends the log ends where the request starts, so nothing is cut. -/
theorem Acts.trimmed (h : Acts C s l m₀ input n' events rest s')
    (hok : onDelivery ExactAppend s l) {sender : MemberId} {callback : Callback}
    {request : AppendEntriesRequest} {live : List ℕ}
    (hi : input = .receive sender (.appendEntries callback request) live)
    (hne : request.entries ≠ []) {old : List LogEntry}
    (hold : (s.node m₀).Trimmed request old) :
    old = (s.node m₀).logs.entries ∧
      request.prevLogIndex = (s.node m₀).logs.lastLogIndex ∧
      (s.node m₀).logs.termAt request.prevLogIndex = request.prevLogTerm := by
  obtain ⟨hle,hprev,hold⟩ := hold
  have hexact := hok.apply (h.packet hi).1 request rfl hne hle hprev
  exact ⟨hold.resolve_right fun hcut => hcut.1 hexact.2,hexact⟩

theorem Acts.logStep (h : Acts C s l m₀ input n' events rest s') (hs : Electoral C s)
    (hm : Matched s) (hsafe : ElectionSafe s') (hok : onDelivery ExactAppend s l) :
    LogStep s m₀ input n' s'.termLog := by
  have hfirst := hs.addressed.firstIndex m₀
  have hL := h.termLog_eq
  have hlc := h.transition.logChange
  cases hlc with
  | kept hlog hsilent =>
    rw [foldl_record_silent hsilent] at hL
    exact .kept hlog hL (h.role_of_silent hsilent)
  | elected hrole =>
    exact .elected rfl (h.termLog_nil hs hm hsafe hrole List.mem_cons_self) rfl rfl hL
  | queued hrole hterm hrole' hlog hsilent =>
    refine .queued _ hrole' hrole hterm hterm.symm hlog ?_ (by simp)
    rw [hL, List.foldl_cons, foldl_record_silent hsilent, hterm]
    rfl
  | @received sender callback request live n' events old hold hterm hentries hlog hsilent =>
    rw [foldl_record_silent hsilent] at hL
    have hpacket := h.packet_mem rfl
    obtain ⟨rfl,hlast,htermAt⟩ := h.trimmed hok rfl hentries hold
    obtain hlog | hlog := hlog
    · exact .kept hlog hL (h.role_of_silent hsilent)
    · obtain ⟨before,hpre,hlen,hbefore⟩ := hm.requests _ hpacket rfl hentries
      rw [RaftLog.lastLogIndex_eq hfirst] at hlast
      rw [hlast, RaftLog.termAt_eq hfirst le_rfl, List.take_length] at htermAt
      have hanch := (hm.log request.term).of_isPrefix ((List.prefix_append _ _).trans hpre)
      have heq : before = (s.node m₀).logs.entries :=
        hanch.eq_of_lastTerm (hm.node m₀) (hlen.trans hlast) (hbefore.trans htermAt.symm)
      refine .received rfl hterm hlog (by rw [hlog, ← heq]; exact hpre) hL fun hrole => ?_
      obtain ⟨hrole₀,hterm₀⟩ := h.role_of_silent hsilent hrole
      exact hm.not_received hs (h.electionSafe hsafe) h rfl hrole₀ (hterm₀.symm.trans hterm)

end Steps

namespace LogStep
variable {s : Cluster} {m : MemberId} {input : Input} {n' : RaftNode} {L' : ℕ → List LogEntry}

theorem grows (h : LogStep s m input n' L') :
    (s.node m).logs.entries <+: n'.logs.entries := by
  cases h with
  | kept hlog _ _ => rw [hlog]
  | received _ _ hlog _ _ _ =>
    rw [hlog]
    exact List.prefix_append _ _
  | elected _ _ _ hlog _ => rw [hlog]
  | queued _ _ _ _ _ hlog _ _ =>
    rw [hlog]
    exact List.prefix_append _ _

theorem termLog_grows (h : LogStep s m input n' L') (t : ℕ) : s.termLog t <+: L' t := by
  cases h with
  | kept _ h _ => rw [h]
  | received _ _ _ _ h _ => rw [h]
  | elected _ hnew _ _ h =>
    rw [h]
    obtain rfl | ht := eq_or_ne t n'.currentTerm
    · rw [hnew]
      exact List.nil_prefix
    · rw [Function.update_of_ne ht]
  | queued entry _ _ _ _ _ h _ =>
    rw [h]
    obtain rfl | ht := eq_or_ne t n'.currentTerm
    · rw [Function.update_self]
      exact List.prefix_append _ _
    · rw [Function.update_of_ne ht]

/-- The log of a term's leader only changes by a step of this leader. -/
theorem eq_or_leads (h : LogStep s m input n' L') (t : ℕ) :
    L' t = s.termLog t ∨ t = n'.currentTerm ∧ n'.role = .leader := by
  cases h with
  | kept _ h _ => exact Or.inl (by rw [h])
  | received _ _ _ _ h _ => exact Or.inl (by rw [h])
  | elected hrole _ _ _ h =>
    obtain rfl | ht := eq_or_ne t n'.currentTerm
    · exact Or.inr ⟨rfl,hrole⟩
    · exact Or.inl (by rw [h, Function.update_of_ne ht])
  | queued _ hrole _ _ _ _ h _ =>
    obtain rfl | ht := eq_or_ne t n'.currentTerm
    · exact Or.inr ⟨rfl,hrole⟩
    · exact Or.inl (by rw [h, Function.update_of_ne ht])

end LogStep

theorem Acts.logs_grow [Protobuf] {C : ClusterConfig} {s s' : Cluster} {l : Label}
    {m₀ : MemberId} {input : Input} {n' : RaftNode} {events : List Event} {rest : List Packet}
    (h : Acts C s l m₀ input n' events rest s') (hstep : LogStep s m₀ input n' s'.termLog)
    (m : MemberId) : (s.node m).logs.entries <+: (s'.node m).logs.entries := by
  by_cases hi : m = m₀
  · subst hi
    rw [h.node_self]
    exact hstep.grows
  · rw [h.node_ne hi]

namespace Matched
variable [Protobuf] {C : ClusterConfig} {s s' : Cluster} {l : Label} {m₀ : MemberId}
  {input : Input} {n' : RaftNode} {events : List Event} {rest : List Packet}

section Act
variable (hm : Matched s) (hs' : Electoral C s') (hsafe : ElectionSafe s')
  (h : Acts C s l m₀ input n' events rest s') (hstep : LogStep s m₀ input n' s'.termLog)
include hm hs' hsafe h hstep

theorem leader_act {m : MemberId} (hrole : (s'.node m).role = .leader) :
    (s'.node m).logs.entries = s'.termLog (s'.node m).currentTerm := by
  by_cases hi : m = m₀
  · subst hi
    rw [h.node_self] at hrole ⊢
    cases hstep with
    | kept hlog hL hkept =>
      obtain ⟨hrole₀,hterm⟩ := hkept hrole
      rw [hL, hterm, hlog, hm.leader m hrole₀]
    | received _ _ _ _ _ hnot => exact absurd hrole hnot
    | elected _ _ _ _ hL => rw [hL, Function.update_self]
    | queued entry _ hrole₀ hterm _ hlog hL _ =>
      rw [hL, Function.update_self, hlog, hm.leader m hrole₀, hterm]
  · obtain heq | ⟨hterm,hlead⟩ := hstep.eq_or_leads (s'.node m).currentTerm
    · rw [heq]
      rw [h.node_ne hi] at hrole ⊢
      exact hm.leader m hrole
    · obtain ⟨l,hl⟩ := hs'.leader m hrole
      obtain ⟨l',hl'⟩ := hs'.leader m₀ (by rw [h.node_self]; exact hlead)
      rw [h.node_self, ← hterm] at hl'
      exact absurd (hsafe hl hl') hi

omit [Protobuf] hs' hsafe h in
theorem log_act (t : ℕ) : Anchored LogEntry.term s'.termLog (s'.termLog t) := by
  have hgrow := hstep.termLog_grows
  have hold := (hm.log t).mono hgrow
  have hnode := (hm.node m₀).mono hgrow
  cases hstep with
  | kept _ hL _ => rw [hL] at hold ⊢; exact hold
  | received _ _ _ _ hL _ => rw [hL] at hold ⊢; exact hold
  | elected _ _ _ hlog hL =>
    rw [hL] at hold hnode ⊢
    obtain rfl | ht := eq_or_ne t n'.currentTerm
    · rw [Function.update_self, hlog]
      rw [hlog] at hnode
      exact hnode
    · rw [Function.update_of_ne ht]
      exact hold
  | queued entry _ _ _ hentry _ hL _ =>
    rw [hL] at hold ⊢
    obtain rfl | ht := eq_or_ne t n'.currentTerm
    · rw [Function.update_self]
      refine hold.append_singleton ?_
      rw [hentry, Function.update_self]
    · rw [Function.update_of_ne ht]
      exact hold

omit [Protobuf] hs' hsafe h in
theorem bounded_act (t : ℕ) : ∀ e ∈ s'.termLog t, e.term ≤ t := by
  intro e he
  cases hstep with
  | kept _ hL _ => exact hm.bounded t e (hL ▸ he)
  | received _ _ _ _ hL _ => exact hm.bounded t e (hL ▸ he)
  | elected _ _ hterm hlog hL =>
    rw [hL] at he
    obtain rfl | ht := eq_or_ne t n'.currentTerm
    · rw [Function.update_self, hlog] at he
      rw [hterm]
      exact hm.node_le m₀ e he
    · rw [Function.update_of_ne ht] at he
      exact hm.bounded t e he
  | queued entry _ _ _ hentry _ hL _ =>
    rw [hL] at he
    obtain rfl | ht := eq_or_ne t n'.currentTerm
    · rw [Function.update_self] at he
      obtain he | he := List.mem_append.mp he
      · exact hm.bounded _ e he
      · rw [List.mem_singleton.mp he, hentry]
    · rw [Function.update_of_ne ht] at he
      exact hm.bounded t e he

omit hs' hsafe in
theorem node_le_act (m : MemberId) :
    ∀ e ∈ (s'.node m).logs.entries, e.term ≤ (s'.node m).currentTerm := by
  by_cases hi : m = m₀
  · subst hi
    rw [h.node_self]
    have hmono := h.transition.term_le
    intro e he
    cases hstep with
    | kept hlog _ _ => exact (hm.node_le m e (hlog ▸ he)).trans hmono
    | received _ hterm _ hpre _ _ =>
      rw [hterm]
      exact hm.bounded _ e (hpre.subset he)
    | elected _ _ _ hlog _ => exact (hm.node_le m e (hlog ▸ he)).trans hmono
    | queued entry _ _ _ hentry hlog _ _ =>
      rw [hlog] at he
      obtain he | he := List.mem_append.mp he
      · exact (hm.node_le m e he).trans hmono
      · rw [List.mem_singleton.mp he, hentry]
  · rw [h.node_ne hi]
    exact hm.node_le m

theorem node_act (m : MemberId) : Anchored LogEntry.term s'.termLog (s'.node m).logs.entries := by
  have hgrow := hstep.termLog_grows
  by_cases hi : m = m₀
  · subst hi
    have hold := (hm.node m).mono hgrow
    have hlead := leader_act hm hs' hsafe h hstep (m := m)
    have hlog' := log_act hm hstep
    rw [h.node_self] at hlead ⊢
    cases hstep with
    | kept hlog _ _ => rw [hlog]; exact hold
    | received _ _ _ hpre _ _ => exact (hlog' _).of_isPrefix (hpre.trans (hgrow _))
    | elected hrole _ _ _ _ => rw [hlead hrole]; exact hlog' _
    | queued _ hrole _ _ _ _ _ _ => rw [hlead hrole]; exact hlog' _
  · rw [h.node_ne hi]
    exact (hm.node m).mono hgrow

omit hsafe in
theorem started_act (t : ℕ) (ht : s'.termLog t ≠ []) :
    ∃ a l, (a,.becameLeader t l) ∈ s'.history := by
  obtain heq | ⟨rfl,hrole⟩ := hstep.eq_or_leads t
  · rw [heq] at ht
    obtain ⟨a,l,hl⟩ := hm.started t ht
    exact ⟨a,l,h.history_subset hl⟩
  · obtain ⟨l,hl⟩ := hs'.leader m₀ (by rw [h.node_self]; exact hrole)
    rw [h.node_self] at hl
    exact ⟨m₀,l,hl⟩

omit [Protobuf] hs' hsafe h hstep in
/-- Where no leader has written, no log has entries. -/
theorem term_ne (m : MemberId) {t : ℕ} (ht : s.termLog t = []) :
    ∀ e ∈ (s.node m).logs.entries, e.term ≠ t := by
  intro e he heq
  obtain ⟨i,hi,rfl⟩ := List.mem_iff_getElem.mp he
  have hp := (hm.node m).take_isPrefix hi
  rw [heq, ht, List.prefix_nil] at hp
  have hlen := congrArg List.length hp
  rw [List.length_take, List.length_nil] at hlen
  omega

theorem elected_act (hs : Electoral C s) {a : MemberId} {t : ℕ} {l : List LogEntry}
    (he : (a,.becameLeader t l) ∈ s'.history) :
    l <+: s'.termLog t ∧ ∀ e ∈ l, e.term < t := by
  obtain he | ⟨rfl,he⟩ := h.mem_history.mp he
  · exact ⟨(hm.elected he).1.trans (hstep.termLog_grows t),(hm.elected he).2⟩
  · have hlead := leader_act hm hs' hsafe h hstep (m := a)
    have ho := h.origin he
    rw [h.node_self] at hlead
    cases ho with
    | becameLeader hterm hrole hgrant hmajority =>
      have heq : (s.node a).logs.entries = s'.termLog (s.node a).currentTerm := hlead rfl
      refine ⟨heq ▸ List.prefix_refl _,fun e hmem => ?_⟩
      have hnil := h.termLog_nil hs hm hsafe hrole he
      exact lt_of_le_of_ne (hm.node_le a e hmem) (hm.term_ne a hnil e hmem)

omit hs' hsafe hstep in
theorem sender_act (hs : Electoral C s) {p : Packet} (hp : p ∈ s'.network) {callback : Callback}
    {request : AppendEntriesRequest} (hb : p.body = .appendEntries callback request) :
    ∃ l, (p.sender,.becameLeader request.term l) ∈ s'.history := by
  obtain hp | ⟨rfl,he⟩ := h.mem_network hp
  · obtain ⟨l,hl⟩ := hm.sender p hp hb
    exact ⟨l,h.history_subset hl⟩
  · rw [hb] at he
    obtain ⟨hrole,-,hterm,-⟩ := ((h.origin he).continues (hs.addressed.firstIndex p.sender)).1
    rw [← hterm]
    exact (hs.leader _ hrole).imp fun _ hl => h.history_subset hl

theorem requests_act (hs : Electoral C s) {p : Packet} (hp : p ∈ s'.network)
    {callback : Callback} {request : AppendEntriesRequest}
    (hb : p.body = .appendEntries callback request) (hne : request.entries ≠ []) :
    Continues s'.termLog request := by
  obtain hp | ⟨rfl,he⟩ := h.mem_network hp
  · obtain ⟨before,hpre,hlen,hlast⟩ := hm.requests p hp hb hne
    exact ⟨before,hpre.trans (hstep.termLog_grows _),hlen,hlast⟩
  · rw [hb] at he
    obtain ⟨⟨-,hrole,-,hterm⟩,hcont⟩ := (h.origin he).continues (hs.addressed.firstIndex p.sender)
    have hlead := leader_act hm hs' hsafe h hstep (m := p.sender)
    rw [h.node_self] at hlead
    obtain ⟨before,hpre,hlen,hlast⟩ := hcont hne
    refine ⟨before,?_,hlen,hlast⟩
    rw [← hterm, ← hlead hrole]
    exact hpre

theorem act (hs : Electoral C s) : Matched s' where
  leader _ := leader_act hm hs' hsafe h hstep
  node := node_act hm hs' hsafe h hstep
  log := log_act hm hstep
  bounded := bounded_act hm hstep
  node_le := node_le_act hm h hstep
  started := started_act hm hs' h hstep
  elected := elected_act hm hs' hsafe h hstep hs
  sender _ hp _ _ := sender_act hm h hs hp
  requests _ hp _ _ := requests_act hm hs' hsafe h hstep hs hp

end Act
end Matched

section Runs
variable [Protobuf] {C : ClusterConfig} {s : Cluster} {ok : Cluster → Label → Prop}
  {kv : MemberId → Storage} {labels : List Label}

/-- One leader per term, also after the next step. -/
theorem Run.electionSafe_act (hok : ∀ s l, ok s l → onDelivery Orderly s l)
    (hr : Cluster.Run C ok kv labels s) {l : Label} (hl : ok s l) {m : MemberId} {input : Input}
    {n' : RaftNode} {events : List Event} {rest : List Packet} {s' : Cluster}
    (ha : Acts C s l m input n' events rest s') : ElectionSafe s' := by
  have hvote : ∀ s l, ok s l → onDelivery SingleVote s l := fun s l hl =>
    Orderly.singleVote s l (hok s l hl)
  have hs := Run.electoral hr
  have hv := (Run.votesOnce hvote hr).act hs (hvote _ _ hl) ha
  intro a b term log log'
  exact hv.electionSafe (hs.act ha)

/-- What the next step of such a run does to the logs. -/
theorem Matched.orderly_act (hm : Matched s) (hok : ∀ s l, ok s l → onDelivery Orderly s l)
    (hr : Cluster.Run C ok kv labels s) {l : Label} (hl : ok s l) {m : MemberId} {input : Input}
    {n' : RaftNode} {events : List Event} {rest : List Packet} {s' : Cluster}
    (ha : Acts C s l m input n' events rest s') :
    LogStep s m input n' s'.termLog ∧ Matched s' := by
  have hs := Run.electoral hr
  have hsafe : ElectionSafe s' := Run.electionSafe_act hok hr hl ha
  have hstep := ha.logStep hs hm hsafe (Orderly.exactAppend _ _ (hok _ _ hl))
  exact ⟨hstep,hm.act (hs.act ha) hsafe ha hstep hs⟩

theorem Run.matched (hok : ∀ s l, ok s l → onDelivery Orderly s l)
    (h : Cluster.Run C ok kv labels s) : Matched s := by
  refine Run.invariant (.init kv) (fun hm hl => hm.lose hl) ?_ h
  intro ls s l m input n' events rest s' hr hm hl ha
  exact (hm.orderly_act hok hr hl ha).2

theorem Run.logStep (hok : ∀ s l, ok s l → onDelivery Orderly s l)
    (hr : Cluster.Run C ok kv labels s) {l : Label} (hl : ok s l) {m : MemberId} {input : Input}
    {n' : RaftNode} {events : List Event} {rest : List Packet} {s' : Cluster}
    (ha : Acts C s l m input n' events rest s') :
    LogStep s m input n' s'.termLog ∧ Matched s' :=
  (Run.matched hok hr).orderly_act hok hr hl ha

/-- If two logs have entries of one term at a position, they are the same up to there. -/
def LogMatching (s : Cluster) : Prop :=
  ∀ {a b i e e'}, (s.node a).logs.entryAt i = .ok e → (s.node b).logs.entryAt i = .ok e' →
    e.term = e'.term → ∀ j ≤ i, (s.node a).logs.entryAt j = (s.node b).logs.entryAt j

omit [Protobuf] in
theorem Matched.logMatching (hm : Matched s) (hs : Addressed C s) : LogMatching s := by
  intro a b i e e' ha hb ht j hj
  have hfirst := hs.firstIndex
  obtain ⟨hpos,ha⟩ := (RaftLog.entryAt_ok (hfirst a)).mp ha
  obtain ⟨-,hb⟩ := (RaftLog.entryAt_ok (hfirst b)).mp hb
  obtain ⟨hia,rfl⟩ := List.getElem?_eq_some_iff.mp ha
  obtain ⟨hib,rfl⟩ := List.getElem?_eq_some_iff.mp hb
  exact RaftLog.entryAt_congr (hfirst b) (hfirst a)
    ((hm.node a).matching (hm.node b) hia hib ht) (by omega)

/-- Logs match in a run in which members vote once and append at the end only. -/
theorem logs_match (h : Cluster.Run C (onDelivery Orderly) kv labels s) : LogMatching s :=
  (Run.matched (fun _ _ h => h) h).logMatching (Run.addressed h)

end Runs

section Trio
attribute [local instance] Proto3.protobuf

theorem logs_match_trio : ∃ s, Cluster.Run trio (onDelivery Orderly) (fun _ => Storage.empty)
    [.electionTimeout 1,delivery 0,delivery 1,putting 1 10,delivery 1] s ∧
      (s.node 2).logs.lastLogIndex = 1 ∧ LogMatching s := by
  obtain ⟨s,hs,hlast⟩ : ∃ s, Cluster.Run trio (onDelivery Orderly) (fun _ => Storage.empty)
      [.electionTimeout 1,delivery 0,delivery 1,putting 1 10,delivery 1] s ∧
      (s.node 2).logs.lastLogIndex = 1 := Generic.Run.of_check (by decide) (by decide)
  exact ⟨s,hs,hlast,logs_match hs⟩

/-- Member 2 misses the first entry and gets the first two by a re-send. The third one reaches it
by the broadcast and, as its `next_index_` still names it, by the next re-send: it then stands
twice in the log of member 2, the second time where the leader's fourth stands. -/
theorem entries_appended_twice : ∃ s, Cluster.Run trio anyStep (fun _ => Storage.empty)
    [.electionTimeout 1,delivery 0,delivery 1,putting 1 10,.lose 1,putting 1 20,delivery 2,
      delivery 3,.heartbeatTimeout 1,delivery 3,putting 1 30,.heartbeatTimeout 1,delivery 3,
      delivery 5,delivery 6,putting 1 40] s ∧ ¬LogMatching s := by
  obtain ⟨s,hs,h₁,h₂⟩ : ∃ s, Cluster.Run trio anyStep (fun _ => Storage.empty)
      [.electionTimeout 1,delivery 0,delivery 1,putting 1 10,.lose 1,putting 1 20,delivery 2,
        delivery 3,.heartbeatTimeout 1,delivery 3,putting 1 30,.heartbeatTimeout 1,delivery 3,
        delivery 5,delivery 6,putting 1 40] s ∧
      (s.node 1).logs.entryAt 4 = .ok ⟨1,4,Wire.serialize
        (InternalRaftRequest.kvPut ⟨[1],[40],∅⟩)⟩ ∧
      (s.node 2).logs.entryAt 4 = .ok ⟨1,3,Wire.serialize
        (InternalRaftRequest.kvPut ⟨[1],[30],∅⟩)⟩ :=
    Generic.Run.of_check (Generic.accepted_of_forall (fun _ _ => trivial) _ _) (by decide)
  refine ⟨s,hs,fun h => ?_⟩
  have heq := h h₁ h₂ rfl 4 le_rfl
  rw [h₁, h₂] at heq
  exact absurd heq (by decide)

end Trio
end Cluster
end Foskv.Raft
