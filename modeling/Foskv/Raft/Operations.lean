import Foskv.Raft.Replay
import Foskv.Raft.Safety

/-! The operations of clients behind the entries of the logs. -/
namespace Foskv.Raft
open Generic

/-- What a client asks for: a task that a member has queued for it. -/
abbrev Operation := MemberId × ApplyTask

/-- The entry was appended for the operation. -/
def Wrote (history : List (MemberId × Event)) (entry : LogEntry) (op : Operation) : Prop :=
  (op.1,.queued op.2 entry) ∈ history

theorem Wrote.mono {h h' : List (MemberId × Event)} (hsub : h ⊆ h') {entry : LogEntry}
    {op : Operation} (hw : Wrote h entry op) : Wrote h' entry op := hsub hw

/-- A step queues at most one task. -/
theorem RaftNode.Progress.enqueued_cases [Protobuf] {n n' : RaftNode} {input : Input}
    {events : List Event} (h : n.Progress input n' events) :
    enqueued events = [] ∨ ∃ x, enqueued events = [x] := by
  cases h with
  | kept _ _ _ hnone => exact Or.inl hnone.2
  | queued _ _ _ _ _ _ hqueued => exact Or.inr ⟨_,hqueued⟩
  | followed _ _ _ _ hnone => exact Or.inl hnone.2
  | committed _ => exact Or.inl (RaftNode.executions_commitMiddle _ _).2

namespace Cluster

/-- Every entry of a leader's log was appended for one operation, by the leader of its term and
at the index of its task. -/
structure Written (s : Cluster) : Prop where
  index : ∀ {entry op}, Wrote s.history entry op → entry.index = op.2.index
  leader : ∀ {entry op}, Wrote s.history entry op →
    ∃ log, (op.1,.becameLeader entry.term log) ∈ s.history
  unique : ∀ {entry entry' op op'}, Wrote s.history entry op → Wrote s.history entry' op' →
    op.1 = op'.1 → op.2.index = op'.2.index → op = op'
  written : ∀ {t i entry}, (s.termLog t)[i]? = some entry →
    ∃ op, Wrote s.history entry op ∧ op.2.index = i + 1

/-- A task names an index of its member's log. -/
theorem Queued.index_le [Protobuf] {s : Cluster} (hq : Queued s) {entry : LogEntry}
    {op : Operation} (h : Wrote s.history entry op) :
    op.2.index ≤ (s.node op.1).logs.entries.length := by
  obtain ⟨hpos,hget,-⟩ := hq.logged h
  obtain ⟨hlt,-⟩ := List.getElem?_eq_some_iff.mp hget
  omega

namespace Written
variable {s s' : Cluster}

theorem init (kv : MemberId → Storage) : Written (Cluster.init kv) where
  index h := by cases h
  leader h := by cases h
  unique h := by cases h
  written h := by simp [Cluster.termLog, Raft.termLog, Cluster.init] at h

theorem lose (hw : Written s) (h : Loses s s') : Written s' := by
  constructor <;> simp only [Cluster.termLog, h.history]
  · exact hw.index
  · exact hw.leader
  · exact hw.unique
  · exact hw.written

/-- An entry belongs to one operation. -/
theorem eq (hw : Written s) (hsafe : ElectionSafe s) {entry : LogEntry} {op op' : Operation}
    (h : Wrote s.history entry op) (h' : Wrote s.history entry op') : op = op' := by
  obtain ⟨log,hl⟩ := hw.leader h
  obtain ⟨log',hl'⟩ := hw.leader h'
  exact hw.unique h h' (hsafe hl hl') ((hw.index h).symm.trans (hw.index h'))

section Act
variable [Protobuf] {C : ClusterConfig} {l : Label} {m₀ : MemberId} {input : Input}
  {n' : RaftNode} {events : List Event} {rest : List Packet}

/-- A new entry goes to the end of its member's log, which is the log of the term's leader. -/
theorem new (hs : Electoral C s) (hm : Matched s)
    (h : Acts C s l m₀ input n' events rest s') {task : ApplyTask} {entry : LogEntry}
    (he : .queued task entry ∈ events) :
    entry.index = task.index ∧ task.index = (s.node m₀).logs.entries.length + 1 ∧
      (s.node m₀).role = .leader ∧ entry.term = (s.node m₀).currentTerm ∧
      (s.node m₀).logs.entries = s.termLog entry.term := by
  have ho := h.origin he
  cases ho with
  | queued hrole hkept hlog =>
    rw [RaftLog.lastLogIndex_eq (hs.addressed.firstIndex m₀)]
    exact ⟨rfl,rfl,hrole,rfl,hm.leader m₀ hrole⟩

/-- What is queued now was not queued before. -/
theorem fresh (hq : Queued s) (hs : Electoral C s) (hm : Matched s)
    (h : Acts C s l m₀ input n' events rest s') {task : ApplyTask} {entry : LogEntry}
    (he : .queued task entry ∈ events) (entry' : LogEntry) :
    ¬Wrote s.history entry' (m₀,task) := by
  intro hold
  have hle := hq.index_le hold
  have hnew := (new hs hm h he).2.1
  dsimp only at hle
  omega

theorem act (hw : Written s) (hq : Queued s) (hs : Electoral C s) (hm : Matched s)
    (h : Acts C s l m₀ input n' events rest s') : Written s' := by
  have hsplit : ∀ {entry op}, Wrote s'.history entry op →
      Wrote s.history entry op ∨ op.1 = m₀ ∧ .queued op.2 entry ∈ events :=
    fun he => h.mem_history.mp he
  have hlength : ∀ {entry op}, Wrote s.history entry op → op.1 = m₀ →
      op.2.index ≤ (s.node m₀).logs.entries.length := fun he heq => heq ▸ hq.index_le he
  constructor
  · intro entry op he
    obtain he | ⟨-,he⟩ := hsplit he
    · exact hw.index he
    · exact (new hs hm h he).1
  · intro entry op he
    obtain he | ⟨heq,he⟩ := hsplit he
    · exact (hw.leader he).imp fun log hl => h.history_subset hl
    · obtain ⟨-,-,hrole,hterm,-⟩ := new hs hm h he
      obtain ⟨log,hl⟩ := hs.leader m₀ hrole
      rw [heq, hterm]
      exact ⟨log,h.history_subset hl⟩
  · intro entry entry' op op' he he' hmember hindex
    obtain he | ⟨heq,he⟩ := hsplit he
    · obtain he' | ⟨heq',he'⟩ := hsplit he'
      · exact hw.unique he he' hmember hindex
      · have hle := hlength he (hmember.trans heq')
        have hnew := (new hs hm h he').2.1
        omega
    · obtain he' | ⟨heq',he'⟩ := hsplit he'
      · have hle := hlength he' (hmember.symm.trans heq)
        have hnew := (new hs hm h he).2.1
        omega
      · refine Prod.ext hmember ?_
        have hmem := mem_enqueued.mpr he
        have hmem' := mem_enqueued.mpr he'
        obtain hnone | ⟨x,hone⟩ := h.transition.progress.enqueued_cases
        · simp [hnone] at hmem
        · rw [hone, List.mem_singleton] at hmem hmem'
          exact congrArg Prod.fst (hmem.trans hmem'.symm)
  · intro t i entry hget
    have hold : ∀ {t}, (s.termLog t)[i]? = some entry →
        ∃ op, Wrote s'.history entry op ∧ op.2.index = i + 1 := fun hget =>
      (hw.written hget).imp fun op hop => ⟨hop.1.mono h.history_subset,hop.2⟩
    rw [h.termLog_eq] at hget
    have hlc := h.transition.logChange
    cases hlc with
    | kept _ hsilent | received _ _ _ _ hsilent =>
      rw [foldl_record_silent hsilent] at hget
      exact hold hget
    | elected hrole =>
      obtain rfl | ht := eq_or_ne t (s.node m₀).currentTerm
      · -- The log a leader starts from has the entries of earlier leaders.
        simp only [List.foldl_cons, List.foldl_nil, record, Function.update_self] at hget
        obtain ⟨hlt,rfl⟩ := List.getElem?_eq_some_iff.mp hget
        have hpre := (hm.node m₀).take_isPrefix hlt
        refine hold (getElem?_of_isPrefix hpre ?_)
        rw [List.getElem?_take, if_pos (Nat.lt_succ_self i)]
        exact hget
      · simp only [List.foldl_cons, List.foldl_nil, record, Function.update_of_ne ht] at hget
        exact hold hget
    | @queued _ _ sessionId requestId request _ rest hrole _ _ _ hsilent =>
      rw [List.foldl_cons, foldl_record_silent hsilent] at hget
      obtain rfl | ht := eq_or_ne t (s.node m₀).currentTerm
      · simp only [record, Function.update_self] at hget
        obtain hlt | hge := Nat.lt_or_ge i (s.termLog (s.node m₀).currentTerm).length
        · rw [List.getElem?_append_left hlt] at hget
          exact hold hget
        · rw [List.getElem?_append_right hge, List.getElem?_singleton] at hget
          obtain ⟨hi,heq⟩ := Option.ite_none_right_eq_some.mp hget
          cases heq
          refine ⟨(m₀,⟨_,sessionId,requestId,request⟩),
            h.mem_history.mpr (Or.inr ⟨rfl,List.mem_cons_self⟩),?_⟩
          rw [RaftLog.lastLogIndex_eq (hs.addressed.firstIndex m₀), hm.leader m₀ hrole]
          exact congrArg (· + 1) (by omega)
      · simp only [record, Function.update_of_ne ht] at hget
        exact hold hget

end Act
end Written

/-- The operations entries were appended for, in order. -/
abbrev Wrotes (s : Cluster) : List LogEntry → List Operation → Prop :=
  List.Forall₂ (Wrote s.history)

section Lists
variable {s s' : Cluster} {P P' : List LogEntry} {ops ops' : List Operation}

theorem Wrotes.mono (h : Wrotes s P ops) (hsub : s.history ⊆ s'.history) : Wrotes s' P ops :=
  h.imp fun _ _ hw => hw.mono hsub

/-- The first entries were appended for the first operations. -/
theorem Wrotes.isPrefix (hw : Written s) (hsafe : ElectionSafe s) (h : Wrotes s P ops)
    (h' : Wrotes s P' ops') (hpre : P <+: P') : ops <+: ops' := by
  have htake := List.forall₂_take P.length h'
  rw [← List.prefix_iff_eq_take.mp hpre] at htake
  have hunique : Relator.RightUnique (Wrote s.history) := fun _ _ _ h h' => hw.eq hsafe h h'
  have heq : ops = ops'.take P.length := List.right_unique_forall₂' hunique h htake
  exact heq ▸ List.take_prefix _ _

theorem Wrotes.call (h : Wrotes s P ops) {op : Operation} (hop : op ∈ ops) :
    ∃ entry, Wrote s.history entry op := by
  obtain ⟨i,hi,rfl⟩ := List.getElem_of_mem hop
  have hlt : i < P.length := h.length_eq ▸ hi
  exact ⟨P[i],(List.forall₂_iff_get.mp h).2 i hlt hi⟩

/-- Entries of a leader's log were appended for some operations. -/
theorem Written.wrotes (hw : Written s) {t : ℕ} (hP : P <+: s.termLog t) :
    ∃ ops, Wrotes s P ops := by
  have hall : ∀ entry ∈ P, ∃ op, Wrote s.history entry op := by
    intro entry he
    obtain ⟨i,hi,rfl⟩ := List.getElem_of_mem (hP.subset he)
    obtain ⟨op,hop,-⟩ := hw.written (List.getElem?_eq_getElem hi)
    exact ⟨op,hop⟩
  clear hP
  induction P with
  | nil => exact ⟨[],.nil⟩
  | cons entry P ih =>
    obtain ⟨op,hop⟩ := hall entry List.mem_cons_self
    obtain ⟨ops,hops⟩ := ih fun e he => hall e (List.mem_cons_of_mem _ he)
    exact ⟨op::ops,.cons hop hops⟩

/-- They stand at the indexes of their tasks. -/
theorem Written.indexes (hw : Written s) (hsafe : ElectionSafe s) {t : ℕ}
    (hP : P <+: s.termLog t) (h : Wrotes s P ops) :
    ops.map (fun op => op.2.index) = List.range' 1 ops.length := by
  refine List.ext_getElem (by simp) fun i hi _ => ?_
  rw [List.length_map] at hi
  have hlt : i < P.length := h.length_eq ▸ hi
  obtain ⟨op,hop,hindex⟩ :=
    hw.written (getElem?_of_isPrefix hP (List.getElem?_eq_getElem hlt))
  have heq : ops[i] = op := hw.eq hsafe ((List.forall₂_iff_get.mp h).2 i hlt hi) hop
  rw [List.getElem_map, List.getElem_range', heq, hindex]
  omega

/-- The commands of the entries are the requests of the operations. -/
theorem Wrotes.commandsOf [Protobuf] (hq : Queued s) (h : Wrotes s P ops) :
    commandsOf P = ops.map fun op => op.2.request := by
  induction h with
  | nil => rfl
  | cons hop hops ih =>
    have hparse := (hq.logged hop).2.2
    rw [List.map_cons, ← ih]
    exact List.filterMap_cons_some (by rw [hparse, Wire.parse_serialize])

end Lists

/-- Operations whose entries are the first ones of something committed. -/
def Decided (C : ClusterConfig) (s : Cluster) (ops : List Operation) : Prop :=
  ∃ P, Certified C s P ∧ Wrotes s P ops

namespace Decided
variable {C : ClusterConfig} {s s' : Cluster} {ops ops' : List Operation}

theorem mono (h : Decided C s ops) (hsub : s.history ⊆ s'.history)
    (hgrow : ∀ t, s.termLog t <+: s'.termLog t) : Decided C s' ops := by
  obtain ⟨P,hP,hops⟩ := h
  exact ⟨P,hP.mono hsub hgrow,hops.mono hsub⟩

theorem nil (C : ClusterConfig) (s : Cluster) : Decided C s [] := ⟨[],Or.inl rfl,.nil⟩

theorem nodup (hw : Written s) (hsafe : ElectionSafe s) (h : Decided C s ops) : ops.Nodup := by
  obtain ⟨P,rfl | ⟨P',t,hP',hpre⟩,hops⟩ := h
  · cases hops
    exact List.nodup_nil
  · have hindex := hw.indexes hsafe (hpre.trans hP'.written) hops
    exact List.Nodup.of_map _ (hindex ▸ List.nodup_range')

end Decided

theorem Run.written [Protobuf] {C : ClusterConfig} {s : Cluster} {ok : Cluster → Label → Prop}
    {kv : MemberId → Storage} {labels : List Label}
    (hok : ∀ s l, ok s l → onDelivery Orderly s l) (h : Cluster.Run C ok kv labels s) :
    Written s := by
  refine Run.invariant (.init kv) (fun hw hl => hw.lose hl) ?_ h
  intro ls s l m input n' events rest s' hr hw hl ha
  exact hw.act (Run.queued hok hr) (Run.electoral hr) (Run.matched hok hr) ha

end Cluster
end Foskv.Raft
