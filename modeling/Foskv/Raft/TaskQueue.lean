import Foskv.Raft.Progress

/-! The queue of client requests against the log: requests whose entries were overwritten. -/
namespace Foskv.Raft
open Generic
namespace RaftNode

/-- The request makes the node cut its log at `prev_log_index`. -/
def Cuts (n : RaftNode) (request : AppendEntriesRequest) : Prop :=
  request.entries ≠ [] ∧ n.currentTerm ≤ request.term ∧
    n.logs.firstIndex ≤ request.prevLogIndex ∧ request.prevLogIndex ≤ n.logs.lastLogIndex ∧
    n.logs.termAt request.prevLogIndex ≠ request.prevLogTerm

instance (n : RaftNode) (request : AppendEntriesRequest) : Decidable (n.Cuts request) :=
  inferInstanceAs (Decidable (_ ∧ _ ∧ _ ∧ _ ∧ _))

variable [Protobuf] {n n' : RaftNode} {input : Input} {events : List Event}

/-- What stands in the log below every cut stays there. -/
theorem LogChange.take_eq (h : LogChange n input n' events) (hfirst : n.logs.firstIndex = 1)
    {k : ℕ} (hk : k ≤ n.logs.entries.length)
    (hcut : ∀ {sender callback request live},
      input = .receive sender (.appendEntries callback request) live →
      n.Cuts request → k < request.prevLogIndex) :
    n'.logs.entries.take k = n.logs.entries.take k ∧ k ≤ n'.logs.entries.length := by
  cases h with
  | kept h _ =>
    rw [h]
    exact ⟨rfl,hk⟩
  | elected _ => exact ⟨rfl,hk⟩
  | @received _ _ request _ _ _ old hold _ hentries h _ =>
    have hpre : n.logs.entries.take k <+: old := by
      obtain ⟨hterm,hprev,hold⟩ := hold
      obtain rfl | ⟨ht,hge,rfl⟩ := hold
      · exact List.take_prefix _ _
      · have hlt := hcut rfl ⟨hentries,hterm,hge,hprev,ht⟩
        exact List.take_prefix_take_left (by omega)
    have hnew : n.logs.entries.take k <+: n'.logs.entries := by
      obtain h | h := h
      · exact h ▸ hpre
      · exact h ▸ hpre.trans (List.prefix_append _ _)
    have hlen : (n.logs.entries.take k).length = k := by
      rw [List.length_take, Nat.min_eq_left hk]
    refine ⟨?_,hlen ▸ hnew.length_le⟩
    have htake := List.prefix_iff_eq_take.mp hnew
    rw [hlen] at htake
    exact htake.symm
  | queued _ _ _ h _ =>
    rw [h]
    exact ⟨List.take_append_of_le_length hk,by simp; omega⟩

omit [Protobuf] in
/-- A commit records the tasks it takes from the queue. -/
theorem executions_commitMiddle (n : RaftNode) (live : List ℕ) :
    executions (n.commitMiddle live).2 =
      (n.stateMachine.apply n.matchIndex.middle).2.map
        (fun done => (done.1,(n.logs.entryAt done.1.index).toOption)) ∧
    enqueued (n.commitMiddle live).2 = [] := by
  have htask : ∀ done, executions (n.taskEvents live done) =
      [(done.1,(n.logs.entryAt done.1.index).toOption)] ∧
      enqueued (n.taskEvents live done) = [] := by
    intro done
    unfold taskEvents
    split_ifs <;> exact ⟨rfl,rfl⟩
  simp only [commitMiddle]
  induction (n.stateMachine.apply n.matchIndex.middle).2 with
  | nil => exact ⟨rfl,rfl⟩
  | cons done run ih =>
    simp only [List.map_cons, List.flatten_cons, executions_append, enqueued_append, ih,
      htask, List.singleton_append, List.append_nil, and_self]

end RaftNode

/-- The tasks a member has executed, with what its log had at their indexes. -/
def executedBy (history : List (MemberId × Event)) (m : MemberId) :
    List (ApplyTask × Option LogEntry) :=
  executions ((history.filter (fun x => x.1 = m)).map Prod.snd)

/-- The tasks a member has queued, with the entries it appended for them. -/
def queuedBy (history : List (MemberId × Event)) (m : MemberId) : List (ApplyTask × LogEntry) :=
  enqueued ((history.filter (fun x => x.1 = m)).map Prod.snd)

section Records
variable (history : List (MemberId × Event)) (m : MemberId) (events : List Event)

theorem executedBy_append_self : executedBy (history ++ events.map (m,·)) m =
    executedBy history m ++ executions events := by
  simp [executedBy, List.filter_map, Function.comp_def]

theorem queuedBy_append_self : queuedBy (history ++ events.map (m,·)) m =
    queuedBy history m ++ enqueued events := by
  simp [queuedBy, List.filter_map, Function.comp_def]

variable {m} {m' : MemberId}

theorem executedBy_append_of_ne (h : m' ≠ m) : executedBy (history ++ events.map (m,·)) m' =
    executedBy history m' := by
  simp [executedBy, List.filter_map, Function.comp_def, h.symm]

theorem queuedBy_append_of_ne (h : m' ≠ m) : queuedBy (history ++ events.map (m,·)) m' =
    queuedBy history m' := by
  simp [queuedBy, List.filter_map, Function.comp_def, h.symm]

end Records

/-- A task with what the log has at its index. -/
def RaftNode.logged (n : RaftNode) (task : ApplyTask) : ApplyTask × Option LogEntry :=
  (task,(n.logs.entryAt task.index).toOption)

theorem RaftNode.logged_last {n' : RaftNode} {task : ApplyTask} {entries : List LogEntry}
    {entry : LogEntry} (hfirst : n'.logs.firstIndex = 1)
    (hlog : n'.logs.entries = entries ++ [entry]) (hindex : task.index = entries.length + 1) :
    n'.logged task = (task,some entry) := by
  have hentry : n'.logs.entryAt task.index = .ok entry := by
    refine (RaftLog.entryAt_ok hfirst).mpr ⟨by omega,?_⟩
    rw [hlog, hindex]
    simp
  rw [logged, hentry]
  rfl

namespace Cluster

/-- No cut of a log reaches the index of a task that is still queued. -/
def KeepsQueued (s : Cluster) (p : Packet) : Prop :=
  ∀ request ∈ p.body.appendRequest, (s.node p.receiver).Cuts request →
    ∀ task ∈ (s.node p.receiver).stateMachine.tasks, task.index < request.prevLogIndex

instance (s : Cluster) (p : Packet) : Decidable (KeepsQueued s p) :=
  inferInstanceAs (Decidable (∀ request ∈ p.body.appendRequest, _ →
    ∀ task ∈ (s.node p.receiver).stateMachine.tasks, _ < _))

/-- The tasks a member executes are the first of those it queued, and at each execution the log
has the entry that was appended for the task. -/
def ExecutesQueued (s : Cluster) : Prop :=
  ∀ m, executedBy s.history m <+: (queuedBy s.history m).map fun x => (x.1,some x.2)

/-- The executed tasks and those still queued are all tasks, each with its own entry. -/
def QueueLogged (s : Cluster) : Prop :=
  ∀ m, executedBy s.history m ++ (s.node m).stateMachine.tasks.map (s.node m).logged =
    (queuedBy s.history m).map fun x => (x.1,some x.2)

namespace QueueLogged
variable {s s' : Cluster}

theorem init (kv : MemberId → Storage) : QueueLogged (Cluster.init kv) := fun _ => rfl

theorem lose (hq : QueueLogged s) (h : Loses s s') : QueueLogged s' := by
  intro m
  rw [h.node, h.history]
  exact hq m

theorem entryAt (hq : QueueLogged s) {m : MemberId} {task : ApplyTask}
    (ht : task ∈ (s.node m).stateMachine.tasks) :
    ∃ e, (s.node m).logs.entryAt task.index = .ok e := by
  have hmem : (s.node m).logged task ∈ (queuedBy s.history m).map fun x => (x.1,some x.2) := by
    rw [← hq m]
    exact List.mem_append_right _ (List.mem_map_of_mem ht)
  obtain ⟨x,-,hx⟩ := List.mem_map.mp hmem
  have hsome := congrArg Prod.snd hx
  simp only [RaftNode.logged] at hsome
  cases hentry : (s.node m).logs.entryAt task.index with
  | error e => simp [hentry, Except.toOption] at hsome
  | ok e => exact ⟨e,rfl⟩

variable [Protobuf] {C : ClusterConfig} {l : Label} {m₀ : MemberId} {input : Input}
  {n' : RaftNode} {events : List Event} {rest : List Packet}

/-- The entries of the queued tasks stay where they are. -/
theorem logged_act (hq : QueueLogged s) (hs : Addressed C s)
    (h : Acts C s l m₀ input n' events rest s') (hok : onDelivery KeepsQueued s l)
    {task : ApplyTask} (ht : task ∈ (s.node m₀).stateMachine.tasks) :
    n'.logged task = (s.node m₀).logged task := by
  have hfirst := hs.firstIndex m₀
  obtain ⟨e,he⟩ := hq.entryAt ht
  obtain ⟨hpos,hget⟩ := (RaftLog.entryAt_ok hfirst).mp he
  obtain ⟨hlen,-⟩ := List.getElem?_eq_some_iff.mp hget
  have htake := (h.transition.logChange.take_eq hfirst (k := task.index) (by omega) ?_).1
  · rw [RaftNode.logged, RaftNode.logged,
      RaftLog.entryAt_congr hfirst (h.transition.firstIndex.trans hfirst) htake le_rfl]
  · intro sender callback request live hi hcut
    exact hok.apply (h.packet hi).1 request (Body.mem_appendRequest.mpr ⟨callback,rfl⟩) hcut
      task ht

theorem act (hq : QueueLogged s) (hs : Addressed C s)
    (h : Acts C s l m₀ input n' events rest s') (hok : onDelivery KeepsQueued s l) :
    QueueLogged s' := by
  intro m
  rw [h.history]
  by_cases hm : m = m₀
  · subst hm
    rw [h.node_self, executedBy_append_self, queuedBy_append_self, List.map_append, ← hq m]
    have hold : (s.node m).stateMachine.tasks.map n'.logged =
        (s.node m).stateMachine.tasks.map (s.node m).logged :=
      List.map_congr_left fun task ht => hq.logged_act hs h hok ht
    have hprog := h.transition.progress
    cases hprog with
    | kept _ _ machine hnone =>
      rw [machine, hold, hnone.1, hnone.2]
      simp
    | @queued _ _ sessionId requestId request _ _ _ _ _ machine hlog hexecuted hqueued =>
      have hfirst := hs.firstIndex m
      have hnew : n'.logged ⟨(s.node m).logs.lastLogIndex + 1,sessionId,requestId,request⟩ = _ :=
        RaftNode.logged_last (h.transition.firstIndex.trans hfirst) hlog
          (congrArg (· + 1) (RaftLog.lastLogIndex_eq hfirst))
      rw [machine, hexecuted, hqueued, StateMachine.produceApplyTask, List.map_append, hold,
        List.map_singleton, hnew]
      simp
    | followed _ _ _ hview hnone =>
      have htasks : n'.stateMachine.tasks = (s.node m).stateMachine.tasks := by
        obtain ⟨-,-,machine⟩ | ⟨_,-,-,machine⟩ := hview <;> rw [machine]
        rfl
      rw [htasks, hold, hnone.1, hnone.2]
      simp
    | @committed _ response live _ =>
      have hexec : executions (((s.node m).told response).commitMiddle live).2 =
          ((s.node m).stateMachine.tasks.takeWhile fun task =>
            task.index ≤ ((s.node m).told response).matchIndex.middle).map (s.node m).logged := by
        rw [(RaftNode.executions_commitMiddle _ live).1, ← StateMachine.apply_executed,
          List.map_map]
        rfl
      have hleft : (((s.node m).told response).commitMiddle live).1.stateMachine.tasks =
          (s.node m).stateMachine.tasks.dropWhile fun task =>
            task.index ≤ ((s.node m).told response).matchIndex.middle :=
        StateMachine.apply_tasks _ _
      rw [hexec, hleft, (RaftNode.executions_commitMiddle _ live).2]
      change _ ++ List.map (s.node m).logged _ = _
      rw [List.append_assoc, ← List.map_append, List.takeWhile_append_dropWhile]
      simp
  · rw [h.node_ne hm, executedBy_append_of_ne _ _ hm, queuedBy_append_of_ne _ _ hm]
    exact hq m

end QueueLogged

section Runs
variable [Protobuf] {C : ClusterConfig} {s : Cluster} {kv : MemberId → Storage}
  {labels : List Label}

theorem Run.queueLogged (h : Cluster.Run C (onDelivery KeepsQueued) kv labels s) :
    QueueLogged s :=
  Run.invariant (.init kv) (fun hq hl => hq.lose hl)
    (fun hr hq hl ha => hq.act (Run.addressed hr) ha hl) h

/-- Only commands that the log still has are executed, in a run in which no log is cut below a
queued task. -/
theorem executes_queued (h : Cluster.Run C (onDelivery KeepsQueued) kv labels s) :
    ExecutesQueued s := by
  intro m
  rw [← Run.queueLogged h m]
  exact List.prefix_append _ _

end Runs

section Trio
attribute [local instance] Proto3.protobuf

theorem executes_queued_trio : ∃ s, Cluster.Run trio (onDelivery KeepsQueued)
    (fun _ => Storage.empty)
    [.electionTimeout 1,delivery 0,delivery 1,putting 1 10,delivery 1,delivery 2] s ∧
      (executedBy s.history 1).length = 1 ∧ ExecutesQueued s := by
  obtain ⟨s,hs,hone⟩ : ∃ s, Cluster.Run trio (onDelivery KeepsQueued) (fun _ => Storage.empty)
      [.electionTimeout 1,delivery 0,delivery 1,putting 1 10,delivery 1,delivery 2] s ∧
      (executedBy s.history 1).length = 1 :=
    Generic.Run.of_check (by decide) (by decide)
  exact ⟨s,hs,hone,executes_queued hs⟩

/-- The entry of member 1's first put is cut off by leader 2; as leader again, member 1 executes
the put when a later commit passes its index. -/
theorem overwritten_executed : ∃ s, Cluster.Run trio anyStep (fun _ => Storage.empty)
    [.electionTimeout 1,delivery 0,delivery 1,putting 1 10,.electionTimeout 2,delivery 4,
      delivery 4,putting 2 20,putting 2 30,delivery 6,.electionTimeout 1,delivery 9,delivery 9,
      putting 1 40,delivery 9,.deliver 10 .ok [7]] s ∧ ¬ExecutesQueued s := by
  obtain ⟨s,hs,hexecuted,hqueued⟩ : ∃ s, Cluster.Run trio anyStep (fun _ => Storage.empty)
      [.electionTimeout 1,delivery 0,delivery 1,putting 1 10,.electionTimeout 2,delivery 4,
        delivery 4,putting 2 20,putting 2 30,delivery 6,.electionTimeout 1,delivery 9,delivery 9,
        putting 1 40,delivery 9,.deliver 10 .ok [7]] s ∧
      (executedBy s.history 1).head? = some (⟨1,7,0,.kvPut ⟨[1],[10],∅⟩⟩,
        some ⟨2,2,Wire.serialize (InternalRaftRequest.kvPut ⟨[1],[30],∅⟩)⟩) ∧
      (queuedBy s.history 1).head? = some (⟨1,7,0,.kvPut ⟨[1],[10],∅⟩⟩,
        ⟨1,1,Wire.serialize (InternalRaftRequest.kvPut ⟨[1],[10],∅⟩)⟩) :=
    Generic.Run.of_check (Generic.accepted_of_forall (fun _ _ => trivial) _ _) (by decide)
  refine ⟨s,hs,fun h => ?_⟩
  obtain ⟨executed,hexecuted⟩ := List.head?_eq_some_iff.mp hexecuted
  obtain ⟨queued,hqueued⟩ := List.head?_eq_some_iff.mp hqueued
  have hpre := h 1
  rw [hexecuted, hqueued, List.map_cons, List.cons_prefix_cons] at hpre
  exact absurd hpre.1 (by decide)

end Trio
end Cluster
end Foskv.Raft
