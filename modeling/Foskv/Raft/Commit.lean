import Foskv.Raft.Matching
import Foskv.Raft.Progress

/-! What `match_index_` stands for, and what a commit of a leader rests on. -/
namespace Foskv.Raft
open Generic

/-- Member `m` has stored the first `k` entries of the leader's log of a term: it has told the
leader so, or is the leader and appended them. -/
inductive Acked (history : List (MemberId × Event)) (m : MemberId) (term k : ℕ) : Prop
  | told {receiver response} (hsent : (m,.sent receiver
      (.appendEntriesReply .appendEntries response)) ∈ history)
      (hsuccess : response.success = true) (hterm : response.header.term = term)
      (hk : k ≤ response.lastLogIndex)
  | wrote {task entry} (hqueued : (m,.queued task entry) ∈ history) (hterm : entry.term = term)
      (hk : k ≤ entry.index)

theorem Acked.mono {h h' : List (MemberId × Event)} (hsub : h ⊆ h') {m : MemberId} {term k : ℕ}
    (ha : Acked h m term k) : Acked h' m term k := by
  cases ha with
  | told hsent hsuccess hterm hk => exact .told (hsub hsent) hsuccess hterm hk
  | wrote hqueued hterm hk => exact .wrote (hsub hqueued) hterm hk

theorem Acked.of_le {h : List (MemberId × Event)} {m : MemberId} {term k k' : ℕ}
    (ha : Acked h m term k) (hle : k' ≤ k) : Acked h m term k' := by
  cases ha with
  | told hsent hsuccess hterm hk => exact .told hsent hsuccess hterm (hle.trans hk)
  | wrote hqueued hterm hk => exact .wrote hqueued hterm (hle.trans hk)

theorem Acked.of_append {h : List (MemberId × Event)} {m₀ : MemberId} {events : List Event}
    {m : MemberId} {term k : ℕ} (ha : Acked (h ++ events.map (m₀,·)) m term k) :
    Acked h m term k ∨ m = m₀ ∧ Acked (events.map (m₀,·)) m₀ term k := by
  cases ha with
  | told hsent hsuccess hterm hk =>
    obtain hsent | hsent := List.mem_append.mp hsent
    · exact Or.inl (.told hsent hsuccess hterm hk)
    · obtain ⟨e,he,heq⟩ := List.mem_map.mp hsent
      cases heq
      exact Or.inr ⟨rfl,.told (List.mem_map_of_mem he) hsuccess hterm hk⟩
  | wrote hqueued hterm hk =>
    obtain hqueued | hqueued := List.mem_append.mp hqueued
    · exact Or.inl (.wrote hqueued hterm hk)
    · obtain ⟨e,he,heq⟩ := List.mem_map.mp hqueued
      cases heq
      exact Or.inr ⟨rfl,.wrote (List.mem_map_of_mem he) hterm hk⟩

/-- The first `k` entries of a log exist and are those of the leader's log of a term. -/
def Holds (L : ℕ → List LogEntry) (entries : List LogEntry) (term k : ℕ) : Prop :=
  k ≤ entries.length ∧ entries.take k <+: L term

theorem Holds.mono {L L' : ℕ → List LogEntry} {entries entries' : List LogEntry} {term k : ℕ}
    (h : Holds L entries term k) (hL : L term <+: L' term) (hlog : entries <+: entries') :
    Holds L' entries' term k := by
  obtain ⟨hk,htake⟩ := h
  refine ⟨hk.trans hlog.length_le,?_⟩
  rw [take_of_isPrefix hlog hk]
  exact htake.trans hL

theorem Holds.of_isPrefix {L : ℕ → List LogEntry} {entries : List LogEntry} {term k : ℕ}
    (h : entries <+: L term) (hk : k ≤ entries.length) : Holds L entries term k :=
  ⟨hk,(List.take_prefix _ _).trans h⟩

theorem Holds.of_le {L : ℕ → List LogEntry} {entries : List LogEntry} {term k k' : ℕ}
    (h : Holds L entries term k) (hle : k' ≤ k) : Holds L entries term k' :=
  ⟨hle.trans h.1,(List.take_prefix_take_left hle).trans h.2⟩

/-- Two logs that hold the same number of entries of one leader agree on them. -/
theorem Holds.take_eq {L : ℕ → List LogEntry} {es es' : List LogEntry} {term k : ℕ}
    (h : Holds L es term k) (h' : Holds L es' term k) : es.take k = es'.take k := by
  have hlen : (es.take k).length = (es'.take k).length := by
    rw [List.length_take, List.length_take, Nat.min_eq_left h.1, Nat.min_eq_left h'.1]
  exact (List.prefix_of_prefix_length_le h.2 h'.2 hlen.le).eq_of_length hlen

namespace Cluster

/-- What `match_index_[m] = v` at member `a` stands for: `m` has acknowledged `v` entries in some
term that `a` has reached, and they are the first entries of `a`. -/
def MatchSound (C : ClusterConfig) (s : Cluster) (a m : MemberId) (v : ℕ) : Prop :=
  v = 0 ∨ m ∈ C.members ∧
    ∃ t ≤ (s.node a).currentTerm, Acked s.history m t v ∧
      Holds s.termLog (s.node a).logs.entries t v

/-- Acknowledgements tell the truth, also in `match_index_` and across leaderships. -/
structure Acknowledged (C : ClusterConfig) (s : Cluster) : Prop where
  filled : ∀ p ∈ s.network, ∀ {request}, p.body = .appendEntries .appendEntries request →
    request.entries ≠ []
  reply : ∀ p ∈ s.network, ∀ {callback response}, p.body = .appendEntriesReply callback response →
    (p.sender,.sent p.receiver p.body) ∈ s.history
  acked : ∀ {m t k}, Acked s.history m t k → t ≤ (s.node m).currentTerm ∧
    Holds s.termLog (s.node m).logs.entries t k
  vote : ∀ {m t c own}, (m,.voted t c own) ∈ s.history → own <+: (s.node m).logs.entries
  before : ∀ {m t k t' c own}, Acked s.history m t k → (m,.voted t' c own) ∈ s.history →
    t < t' → k ≤ own.length
  matchIndex : ∀ {a m v}, ⟨m,v⟩ ∈ (s.node a).matchIndex.entries → MatchSound C s a m v

theorem MatchSound.mono {C : ClusterConfig} {s s' : Cluster} {a m : MemberId} {v : ℕ}
    (h : MatchSound C s a m v) (hsub : s.history ⊆ s'.history)
    (hgrow : ∀ t, s.termLog t <+: s'.termLog t)
    (hterm : (s.node a).currentTerm ≤ (s'.node a).currentTerm)
    (hlog : (s.node a).logs.entries <+: (s'.node a).logs.entries) : MatchSound C s' a m v := by
  obtain hv | ⟨hmem,t,ht,hack,hholds⟩ := h
  · exact Or.inl hv
  · exact Or.inr ⟨hmem,t,ht.trans hterm,hack.mono hsub,hholds.mono (hgrow t) hlog⟩

namespace Acknowledged

theorem init (C : ClusterConfig) (kv : MemberId → Storage) :
    Acknowledged C (Cluster.init kv) where
  filled p hp := by cases hp
  reply p hp := by cases hp
  acked h := by
    cases h with
    | told hsent _ _ _ => cases hsent
    | wrote hqueued _ _ => cases hqueued
  vote h := by cases h
  before _ h := by cases h
  matchIndex h := by cases h

theorem lose {C : ClusterConfig} {s s' : Cluster} (hs : Acknowledged C s) (h : Loses s s') :
    Acknowledged C s' := by
  have hL : s'.termLog = s.termLog := by rw [termLog, h.history]
  constructor
  · exact fun p hp => hs.filled p (h.network.subset hp)
  · intro p hp
    rw [h.history]
    exact hs.reply p (h.network.subset hp)
  · rw [hL, h.history, h.node]
    exact hs.acked
  · rw [h.history, h.node]
    exact hs.vote
  · rw [h.history]
    exact hs.before
  · intro a m v hmem
    rw [h.node] at hmem
    refine (hs.matchIndex hmem).mono (by simp [h.history]) ?_ ?_ ?_
    · simp [hL]
    · simp [h.node]
    · simp [h.node]

section Act
variable [Protobuf] {C : ClusterConfig} {s s' : Cluster} {l : Label} {m₀ : MemberId}
  {input : Input} {n' : RaftNode} {events : List Event} {rest : List Packet}

/-- A request to append is sent with entries. -/
theorem new_filled (hs : Electoral C s) (h : Acts C s l m₀ input n' events rest s')
    {receiver : MemberId} {request : AppendEntriesRequest}
    (he : .sent receiver (.appendEntries .appendEntries request) ∈ events) :
    request.entries ≠ [] := by
  have ho := h.origin he
  cases ho with
  | reissued hrole _ _ hnext =>
    have hfirst := hs.addressed.firstIndex m₀
    rw [RaftNode.reissueRequest_entries hfirst hnext.1]
    rw [RaftLog.lastLogIndex_eq hfirst] at hnext
    simp only [ne_eq, List.drop_eq_nil_iff, Nat.not_le]
    omega
  | replicated _ _ _ _ _ => simp

/-- An acknowledgement given now is true. -/
theorem new_acked (ha : Acknowledged C s) (hm' : Matched s')
    (h : Acts C s l m₀ input n' events rest s') (hok : onDelivery ExactAppend s l)
    (hfirst : n'.logs.firstIndex = 1) (hstep : LogStep s m₀ input n' s'.termLog) {t k : ℕ}
    (hack : Acked (events.map (m₀,·)) m₀ t k) :
    t = n'.currentTerm ∧ Holds s'.termLog n'.logs.entries t k := by
  have hlead := hm'.leader m₀
  rw [h.node_self] at hlead
  have hmem : ∀ {e : Event}, (m₀,e) ∈ events.map (m₀,·) → e ∈ events := by
    intro e he
    obtain ⟨e',he',heq⟩ := List.mem_map.mp he
    cases heq
    exact he'
  cases hack with
  | told hsent hsuccess hterm hk =>
    have hgrow := hstep.termLog_grows
    have ho := h.origin (hmem hsent)
    cases ho with
    | @appendReply _ _ request live _ success conflictIndex hreply =>
      obtain ⟨hterm',hlog⟩ := hreply hsuccess
      have hne := ha.filled _ (h.packet_mem rfl) rfl
      obtain ⟨old,hold,hlog⟩ := hlog hne
      obtain ⟨rfl,-,-⟩ := h.trimmed hok rfl hne hold
      refine ⟨hterm.symm,?_⟩
      have hpre : n'.logs.entries <+: s'.termLog t := by
        rw [← hterm]
        change _ <+: s'.termLog n'.currentTerm
        cases hstep with
        | kept hsame _ _ => simp [hlog, hne] at hsame
        | received hinput hreq _ hpre _ _ => exact hreq ▸ hpre.trans (hgrow _)
        | elected _ _ _ hsame _ => simp [hlog, hne] at hsame
        | queued _ hrole _ _ _ _ _ _ => rw [hlead hrole]
      refine .of_isPrefix hpre ?_
      rw [← RaftLog.lastLogIndex_eq hfirst]
      exact hk
  | wrote hqueued hterm hk =>
    have ho := h.origin (hmem hqueued)
    cases ho with
    | queued hrole hkept hlog =>
      have hall := hlead hkept.1
      refine ⟨hterm.symm.trans hkept.2.symm,.of_isPrefix ?_ ?_⟩
      · rw [hall, ← hterm, hkept.2]
      · have hfirst' : (s.node m₀).logs.firstIndex = 1 := h.transition.firstIndex ▸ hfirst
        rw [hlog, List.length_append, ← RaftLog.lastLogIndex_eq hfirst']
        exact hk

/-- A response of the own term to its leader is an acknowledgement of the leader's entries. -/
theorem matchSound_reply (ha : Acknowledged C s) (hs : Electoral C s) (hm : Matched s)
    (h : Acts C s l m₀ input n' events rest s') {sender : MemberId}
    {response : AppendEntriesResponse} {live : List ℕ}
    (hi : input = .receive sender (.appendEntriesReply .appendEntries response) live)
    (hrole : (s.node m₀).role = .leader) (hterm : response.header.term = (s.node m₀).currentTerm)
    (hsuccess : response.success = true) :
    MatchSound C s m₀ response.header.memberId response.lastLogIndex := by
  have hp := h.packet_mem hi
  have hauthor : response.header.memberId = sender := hs.addressed.author _ hp
  have hack : Acked s.history sender response.header.term response.lastLogIndex :=
    .told (ha.reply _ hp rfl) hsuccess rfl le_rfl
  have hholds := (ha.acked hack).2
  rw [hauthor]
  refine Or.inr ⟨(hs.addressed.members _ hp).1,_,hterm.le,hack,?_⟩
  refine .of_isPrefix ?_ ?_
  · rw [hterm, hm.leader m₀ hrole]
  · have hle := hholds.2.length_le
    rw [hterm, ← hm.leader m₀ hrole, List.length_take, Nat.min_eq_left hholds.1] at hle
    exact hle

theorem matchSound_act (ha : Acknowledged C s) (hs : Electoral C s) (hm : Matched s)
    (hm' : Matched s') (h : Acts C s l m₀ input n' events rest s')
    (hok : onDelivery ExactAppend s l) (hfirst : n'.logs.firstIndex = 1)
    (hstep : LogStep s m₀ input n' s'.termLog) {m : MemberId} {v : ℕ}
    (hmem : ⟨m,v⟩ ∈ n'.matchIndex.entries) : MatchSound C s' m₀ m v := by
  have hlog := h.logs_grow hstep m₀
  have hsrc := h.transition.matchSource hmem
  cases hsrc with
  | old hold =>
    exact (ha.matchIndex hold).mono h.history_subset hstep.termLog_grows (h.term_le m₀) hlog
  | zero hv => exact Or.inl hv
  | own hrole hself hqueued hterm hindex =>
    have hack : Acked (events.map (m₀,·)) m₀ _ v :=
      .wrote (List.mem_map_of_mem hqueued) rfl hindex.ge
    obtain ⟨ht,hholds⟩ := ha.new_acked hm' h hok hfirst hstep hack
    obtain rfl : m = m₀ := hself
    refine Or.inr ⟨h.member hs.addressed,_,?_,hack.mono ?_,?_⟩
    · rw [h.node_self]
      exact ht.le
    · rw [h.history]
      exact List.subset_append_right _ _
    · rw [h.node_self]
      exact hholds
  | reply hterm hrole hsuccess hmember hindex =>
    subst hmember hindex
    exact (ha.matchSound_reply hs hm h rfl hrole hterm hsuccess).mono h.history_subset
      hstep.termLog_grows (h.term_le m₀) hlog

theorem act (ha : Acknowledged C s) (hs : Electoral C s) (hs' : Electoral C s')
    (hm : Matched s) (hm' : Matched s') (h : Acts C s l m₀ input n' events rest s')
    (hok : onDelivery ExactAppend s l) (hstep : LogStep s m₀ input n' s'.termLog) :
    Acknowledged C s' := by
  have hgrow := hstep.termLog_grows
  have hlog := h.logs_grow hstep
  have hfirst : n'.logs.firstIndex = 1 := by
    rw [← h.node_self]
    exact hs'.addressed.firstIndex m₀
  constructor
  · intro p hp request hb
    obtain hp | ⟨rfl,he⟩ := h.mem_network hp
    · exact ha.filled p hp hb
    · rw [hb] at he
      exact new_filled hs h he
  · intro p hp callback response hb
    obtain hp | ⟨rfl,he⟩ := h.mem_network hp
    · exact h.history_subset (ha.reply p hp hb)
    · exact h.mem_history.mpr (Or.inr ⟨rfl,he⟩)
  · intro m t k hall
    rw [h.history] at hall
    obtain hack | ⟨rfl,hack⟩ := hall.of_append
    · obtain ⟨ht,hholds⟩ := ha.acked hack
      exact ⟨ht.trans (h.term_le m),hholds.mono (hgrow t) (hlog m)⟩
    · rw [h.node_self]
      obtain ⟨rfl,hholds⟩ := ha.new_acked hm' h hok hfirst hstep hack
      exact ⟨le_rfl,hholds⟩
  · intro m t c own hv
    obtain hv | ⟨rfl,hv⟩ := h.mem_history.mp hv
    · exact (ha.vote hv).trans (hlog m)
    · rw [(h.origin hv).voted_term.2]
      exact hlog m
  · intro m t k t' c own hall hv ht
    rw [h.history] at hall
    obtain hack | ⟨rfl,hack⟩ := hall.of_append
    · obtain hv | ⟨rfl,hv⟩ := h.mem_history.mp hv
      · exact ha.before hack hv ht
      · rw [(h.origin hv).voted_term.2]
        exact (ha.acked hack).2.1
    · -- A vote of a later term is impossible while the member is in the acknowledged term.
      have hle := hs'.voted_le hv
      rw [h.node_self, ← (ha.new_acked hm' h hok hfirst hstep hack).1] at hle
      omega
  · intro a m v hmem
    by_cases hi : a = m₀
    · subst hi
      rw [h.node_self] at hmem
      exact ha.matchSound_act hs hm hm' h hok hfirst hstep hmem
    · rw [h.node_ne hi] at hmem
      exact (ha.matchIndex hmem).mono h.history_subset hgrow (h.term_le a) (hlog a)

end Act
end Acknowledged

section Runs
variable [Protobuf] {C : ClusterConfig} {s : Cluster} {ok : Cluster → Label → Prop}
  {kv : MemberId → Storage} {labels : List Label}

/-- The next step of a run of orderly steps. -/
theorem Acknowledged.orderly_act (hc : Acknowledged C s)
    (hok : ∀ s l, ok s l → onDelivery Orderly s l) (hr : Cluster.Run C ok kv labels s) {l : Label}
    (hl : ok s l) {m : MemberId} {input : Input} {n' : RaftNode} {events : List Event}
    {rest : List Packet} {s' : Cluster} (ha : Acts C s l m input n' events rest s') :
    Acknowledged C s' := by
  have hs := Run.electoral hr
  obtain ⟨hstep,hm'⟩ := Run.logStep hok hr hl ha
  exact hc.act hs (hs.act ha) (Run.matched hok hr) hm' ha
    (Orderly.exactAppend _ _ (hok _ _ hl)) hstep

theorem Run.acknowledged (hok : ∀ s l, ok s l → onDelivery Orderly s l)
    (h : Cluster.Run C ok kv labels s) : Acknowledged C s := by
  refine Run.invariant (.init C kv) (fun hc hl => hc.lose hl) ?_ h
  intro ls s l m input n' events rest s' hr hc hl ha
  exact hc.orderly_act hok hr hl ha

theorem Run.acknowledged_act (hok : ∀ s l, ok s l → onDelivery Orderly s l)
    (hr : Cluster.Run C ok kv labels s) {l : Label} (hl : ok s l) {m : MemberId} {input : Input}
    {n' : RaftNode} {events : List Event} {rest : List Packet} {s' : Cluster}
    (ha : Acts C s l m input n' events rest s') : Acknowledged C s' :=
  (Run.acknowledged hok hr).orderly_act hok hr hl ha

end Runs

section Majorities
variable {C : ClusterConfig} {s s' : Cluster} {l : Label}

/-- Whoever acknowledged entries of a leader has them. -/
theorem Acknowledged.agrees (hs : Acknowledged C s) {a m : MemberId} {v : ℕ}
    (h : MatchSound C s a m v) (hv : 0 < v) : m ∈ C.members ∧
      v ≤ (s.node a).logs.entries.length ∧
      (s.node m).logs.entries.take v = (s.node a).logs.entries.take v := by
  obtain hzero | ⟨hm,t,-,hack,hholds⟩ := h
  · omega
  · exact ⟨hm,hholds.1,(hs.acked hack).2.take_eq hholds⟩

theorem MatchSound.of_le {a m : MemberId} {v w : ℕ} (h : MatchSound C s a m v) (hle : w ≤ v) :
    MatchSound C s a m w := by
  obtain rfl | ⟨hm,t,ht,hack,hholds⟩ := h
  · exact Or.inl (Nat.le_zero.mp hle)
  · exact Or.inr ⟨hm,t,ht,hack.of_le hle,hholds.of_le hle⟩

/-- What a majority count in `match_index_` of `a` stands for. -/
theorem Acknowledged.majority (hs : Acknowledged C s) {a : MemberId} {w : ℕ} (hw : 0 < w)
    (hcount : C.members.length/2 + 1 ≤ (s.node a).matchIndex.values.countP (w ≤ ·)) :
    w ≤ (s.node a).logs.entries.length ∧
      ∃ K, Majority C.members.toFinset K ∧ ∀ m ∈ K, MatchSound C s a m w := by
  obtain ⟨K,hcard,hK⟩ := RaftNode.exists_members_reaching (s.node a).matchIndex w
  have hsound : ∀ m ∈ K, MatchSound C s a m w := by
    intro m hm
    obtain ⟨v,hv,hle⟩ := hK m hm
    exact (hs.matchIndex hv).of_le hle
  obtain ⟨m,hm⟩ : K.Nonempty := Finset.card_pos.mp (by omega)
  refine ⟨(hs.agrees (hsound m hm) hw).2.1,K,⟨fun m hm => ?_,?_⟩,hsound⟩
  · exact List.mem_toFinset.mpr (hs.agrees (hsound m hm) hw).1
  · rw [C.card_members, hcard]
    exact hcount

/-- What the map of a leader says of a member is so: the two logs agree up to there, and the
leader's reaches that far. -/
def MatchIndexSound (s : Cluster) : Prop :=
  ∀ a m v, (s.node a).role = .leader → (s.node a).matchIndex.lookup m = some v →
    v ≤ (s.node a).logs.lastLogIndex ∧ ∀ i, 0 < i → i ≤ v →
      ∃ e e', (s.node a).logs.entryAt i = .ok e ∧ (s.node m).logs.entryAt i = .ok e' ∧
        e'.term = e.term ∧ e'.command = e.command

/-- Where half of `match_index_`, with the response, reaches an index above the commit index, a
majority of all members does. -/
def CountsMajority (C : ClusterConfig) (s : Cluster) (p : Packet) : Prop :=
  ∀ response ∈ p.body.appendResponse, (s.node p.receiver).Raises response →
    ∀ v ∈ ((s.node p.receiver).told response).matchIndex.values,
      (s.node p.receiver).commitIndex < v →
      HalfReached ((s.node p.receiver).told response).matchIndex.values v →
      C.members.length/2 + 1 ≤
        ((s.node p.receiver).told response).matchIndex.values.countP (v ≤ ·)

instance (C : ClusterConfig) (s : Cluster) (p : Packet) : Decidable (CountsMajority C s p) :=
  inferInstanceAs (Decidable (∀ response ∈ p.body.appendResponse, _ → ∀ v ∈ IndexMap.values _,
    _ → _ → _ ≤ _))

/-- An orderly step in which no leader commits on half of its map. -/
def Counted (C : ClusterConfig) (s : Cluster) (p : Packet) : Prop :=
  Orderly s p ∧ CountsMajority C s p

instance (C : ClusterConfig) (s : Cluster) (p : Packet) : Decidable (Counted C s p) :=
  inferInstanceAs (Decidable (_ ∧ _))

theorem Counted.orderly (C : ClusterConfig) (s : Cluster) (l : Label)
    (h : onDelivery (Counted C) s l) : onDelivery Orderly s l := h.mono fun _ _ h => h.1

/-- A response that raises the commit index raises it to an index of the log up to which a
majority of the members, the leader among them, have the leader's entries. -/
def MajorityCommit (C : ClusterConfig) (s : Cluster) (l : Label) (s' : Cluster) : Prop :=
  ∀ p response, s.Delivers l p → p.body = .appendEntriesReply .appendEntries response →
    (s.node p.receiver).commitIndex < (s'.node p.receiver).commitIndex →
    (s'.node p.receiver).commitIndex ≤ (s'.node p.receiver).logs.lastLogIndex ∧
    ∃ Q ⊆ C.members.toFinset, p.receiver ∈ Q ∧ C.members.length/2 + 1 ≤ Q.card ∧
      ∀ m ∈ Q, ∀ i, 0 < i → i ≤ (s'.node p.receiver).commitIndex →
        ∃ e, (s'.node p.receiver).logs.entryAt i = .ok e ∧ (s'.node m).logs.entryAt i = .ok e

variable [Protobuf] {kv : MemberId → Storage} {labels : List Label}

theorem match_index_sound (h : Cluster.Run C (onDelivery Orderly) kv labels s) :
    MatchIndexSound s := by
  intro a m v _ hv
  have hfirst := (Run.addressed h).firstIndex
  have hack := Run.acknowledged (fun _ _ hl => hl) h
  have hsound := hack.matchIndex (AList.mem_lookup_iff.mp hv)
  obtain rfl | hpos := Nat.eq_zero_or_pos v
  · exact ⟨Nat.zero_le _,by omega⟩
  · obtain ⟨-,hlen,htake⟩ := hack.agrees hsound hpos
    refine ⟨hlen.trans (RaftLog.lastLogIndex_eq (hfirst a)).ge,fun i hi hle => ?_⟩
    obtain ⟨e,he⟩ := RaftLog.entryAt_of_le (hfirst a) hi (hle.trans hlen)
    refine ⟨e,e,he,?_,rfl,rfl⟩
    rw [RaftLog.entryAt_congr (hfirst a) (hfirst m) htake hle, he]

omit [Protobuf] in
/-- A commit index that such a condition let rise is reached by a majority. -/
theorem CountsMajority.apply {p : Packet} (h : CountsMajority C s p)
    {response : AppendEntriesResponse}
    (hb : p.body = .appendEntriesReply .appendEntries response)
    (hraises : (s.node p.receiver).Raises response) {live : List ℕ}
    (hlt : (s.node p.receiver).commitIndex <
      (((s.node p.receiver).told response).commitMiddle live).1.commitIndex) :
    C.members.length/2 + 1 ≤
      (((s.node p.receiver).told response).commitMiddle live).1.matchIndex.values.countP
        ((((s.node p.receiver).told response).commitMiddle live).1.commitIndex ≤ ·) :=
  h response (Body.mem_appendResponse.mpr hb) hraises _
    (RaftNode.commitMiddle_mem_values _ _ live) hlt
    ((RaftNode.le_commitMiddle_iff _ _ _ live).mp le_rfl)

theorem commits_by_majority (h : Cluster.Run C (onDelivery (Counted C)) kv labels s)
    (hl : onDelivery (Counted C) s l) (hs : s.step C l = some s') : MajorityCommit C s l s' := by
  intro p response hp hb hlt
  have hfirst := (Run.addressed (h.snoc hl hs)).firstIndex
  have hack := Run.acknowledged (Counted.orderly C) (h.snoc hl hs)
  obtain ⟨live,n',events,rest,ha⟩ := hp.acts hs
  have hprog := ha.transition.progress
  have hself := ha.node_self
  rw [hb] at hprog
  rw [hself] at hlt
  cases hprog with
  | kept commit _ _ _ => omega
  | committed hraises =>
    have hcount := (hl.apply hp).2.apply hb hraises hlt
    rw [← hself] at hlt hcount
    obtain ⟨hlen,K,hK,hsound⟩ := hack.majority (Nat.zero_lt_of_lt hlt) hcount
    have hmem := List.mem_toFinset.mpr (ha.member (Run.addressed h))
    obtain ⟨hsub,hcard⟩ := hK.superset (Finset.subset_insert p.receiver K)
      (Finset.insert_subset hmem hK.1)
    refine ⟨hlen.trans (RaftLog.lastLogIndex_eq (hfirst _)).ge,_,hsub,
      Finset.mem_insert_self _ _,C.card_members ▸ hcard,fun m hm i hpos hi => ?_⟩
    obtain ⟨e,he⟩ := RaftLog.entryAt_of_le (hfirst p.receiver) hpos (hi.trans hlen)
    refine ⟨e,he,?_⟩
    obtain rfl | hm := Finset.mem_insert.mp hm
    · exact he
    · have hsame := (hack.agrees (hsound m hm) (Nat.zero_lt_of_lt hlt)).2.2
      rw [RaftLog.entryAt_congr (hfirst _) (hfirst _) hsame hi, he]

end Majorities

section Trio
attribute [local instance] Proto3.protobuf

theorem commits_by_majority_trio : ∃ s s', Cluster.Run trio (onDelivery (Counted trio))
    (fun _ => Storage.empty)
    [.electionTimeout 1,delivery 0,delivery 1,putting 1 10,delivery 1] s ∧
      s.step trio (delivery 2) = some s' ∧ (s'.node 1).commitIndex = 1 ∧
      MajorityCommit trio s (delivery 2) s' := by
  obtain ⟨s,hs,hl,hstep⟩ : ∃ s, Cluster.Run trio (onDelivery (Counted trio))
      (fun _ => Storage.empty)
      [.electionTimeout 1,delivery 0,delivery 1,putting 1 10,delivery 1] s ∧
      onDelivery (Counted trio) s (delivery 2) ∧
      (s.step trio (delivery 2)).any (fun s' => (s'.node 1).commitIndex = 1) = true :=
    Generic.Run.of_check (by decide) (by decide)
  obtain ⟨s',hs',hc⟩ := (Option.any_eq_true _ _).mp hstep
  exact ⟨s,s',hs,hs',of_decide_eq_true hc,commits_by_majority hs hl hs'⟩

theorem match_index_sound_trio : ∃ s, Cluster.Run trio (onDelivery Orderly)
    (fun _ => Storage.empty)
    [.electionTimeout 1,delivery 0,delivery 1,putting 1 10,delivery 1,delivery 2] s ∧
      ((s.node 1).role = .leader ∧ (s.node 1).matchIndex.lookup 2 = some 1) ∧
      MatchIndexSound s := by
  obtain ⟨s,hs,hmatch⟩ : ∃ s, Cluster.Run trio (onDelivery Orderly) (fun _ => Storage.empty)
      [.electionTimeout 1,delivery 0,delivery 1,putting 1 10,delivery 1,delivery 2] s ∧
      ((s.node 1).role = .leader ∧ (s.node 1).matchIndex.lookup 2 = some 1) :=
    Generic.Run.of_check (by decide) (by decide)
  exact ⟨s,hs,hmatch,match_index_sound hs⟩

/-- Member 1 leads term 1 and has two entries, member 2 the first of them. Member 2 then leads
term 2, and its put goes behind the second entry of member 1, which reports a log of three. -/
theorem match_index_beyond_log : ∃ s, Cluster.Run trio InOrder (fun _ => Storage.empty)
    [.electionTimeout 1,delivery 0,delivery 1,putting 1 10,delivery 1,delivery 2,putting 1 20,
      .electionTimeout 2,delivery 5,delivery 5,delivery 4,putting 2 30,delivery 5,delivery 2,
      delivery 3,delivery 4] s ∧ ¬MatchIndexSound s := by
  obtain ⟨s,hs,hrole,hmatch,hlast⟩ : ∃ s, Cluster.Run trio InOrder (fun _ => Storage.empty)
      [.electionTimeout 1,delivery 0,delivery 1,putting 1 10,delivery 1,delivery 2,putting 1 20,
        .electionTimeout 2,delivery 5,delivery 5,delivery 4,putting 2 30,delivery 5,delivery 2,
        delivery 3,delivery 4] s ∧ (s.node 2).role = .leader ∧
        (s.node 2).matchIndex.lookup 1 = some 3 ∧ (s.node 2).logs.lastLogIndex = 2 :=
    Generic.Run.of_check (by decide) (by decide)
  refine ⟨s,hs,fun h => ?_⟩
  have hle := (h 2 1 3 hrole hmatch).1
  omega

/-- The leader has two entries and hears that member 2 has the first: the map shows 2 and 1,
and the larger becomes the commit index. -/
theorem commit_without_majority : ∃ s s', Cluster.Run trio anyStep (fun _ => Storage.empty)
    [.electionTimeout 1,delivery 0,delivery 1,putting 1 10,putting 1 20,delivery 1] s ∧
      s.step trio (delivery 4) = some s' ∧ ¬MajorityCommit trio s (delivery 4) s' := by
  obtain ⟨s,hs,hp,hc,hstep⟩ : ∃ s, Cluster.Run trio anyStep (fun _ => Storage.empty)
      [.electionTimeout 1,delivery 0,delivery 1,putting 1 10,putting 1 20,delivery 1] s ∧
      s.network[4]? = some ⟨2,1,.appendEntriesReply .appendEntries ⟨⟨0,2,1⟩,true,1,1⟩⟩ ∧
      (s.node 1).commitIndex = 0 ∧
      (s.step trio (delivery 4)).any (fun s' => (s'.node 1).commitIndex = 2 ∧
        (s'.node 2).logs.entryAt 2 = .error .invalidLogIndex ∧
        (s'.node 3).logs.entryAt 2 = .error .invalidLogIndex) = true :=
    Generic.Run.of_check (Generic.accepted_of_forall (fun _ _ => trivial) _ _) (by decide)
  obtain ⟨s',hs',hafter⟩ := (Option.any_eq_true _ _).mp hstep
  obtain ⟨hc',h₂,h₃⟩ := of_decide_eq_true hafter
  refine ⟨s,s',hs,hs',fun h => ?_⟩
  obtain ⟨-,Q,hsub,-,hcard,hQ⟩ := h _ _ ⟨4,_,_,rfl,hp⟩ rfl (by rw [hc, hc']; decide)
  have hone : ∀ m ∈ Q, m ∈ ({1} : Finset MemberId) := by
    intro m hm
    obtain ⟨e,-,he⟩ := hQ m hm 2 (by decide) hc'.ge
    have hmem : m = 1 ∨ m = 2 ∨ m = 3 := by simpa [trio, ClusterConfig.members] using hsub hm
    obtain rfl | rfl | rfl := hmem
    · exact Finset.mem_singleton_self 1
    · simp [h₂] at he
    · simp [h₃] at he
  have hle := Finset.card_le_card hone
  exact absurd (hcard.trans hle) (by decide)

end Trio
end Cluster
end Foskv.Raft
