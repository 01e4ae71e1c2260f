import Foskv.Raft.TaskQueue

/-! The key-value store against the log: what the commands of a log mean, and when the two ways
of applying them amount to that. -/
namespace Foskv.Raft
open Generic

/-- What a command does to a store. -/
def InternalRaftRequest.effect : InternalRaftRequest → Storage → Storage
  | .kvPut request => fun st => st.put request.key request.value
  | .kvGet _ => id
  | .kvDelete request => fun st => st.delete request.key
  | .notSet => id

/-- The commands of log entries, in order. -/
def commandsOf [Protobuf] (entries : List LogEntry) : List InternalRaftRequest :=
  entries.filterMap fun entry => Wire.parse entry.command

/-- The store after some commands. -/
def replay (commands : List InternalRaftRequest) (st : Storage) : Storage :=
  commands.foldl (fun st command => command.effect st) st

theorem replay_append (commands commands' : List InternalRaftRequest) (st : Storage) :
    replay (commands ++ commands') st = replay commands' (replay commands st) :=
  List.foldl_append

theorem commandsOf_append [Protobuf] (entries entries' : List LogEntry) :
    commandsOf (entries ++ entries') = commandsOf entries ++ commandsOf entries' :=
  List.filterMap_append

namespace StateMachine

theorem execute_store (st : Storage) (request : InternalRaftRequest) :
    (execute st request).1 = request.effect st := by
  cases request with
  | kvPut request => rfl
  | kvGet request =>
    simp only [execute, applyKvGet]
    split <;> rfl
  | kvDelete request => rfl
  | notSet => rfl

/-- The leader path replays the requests of the executed tasks. -/
theorem apply_replay (sm : StateMachine) (commitIndex : ℕ) : (sm.apply commitIndex).1.st =
    replay ((sm.tasks.takeWhile fun task => task.index ≤ commitIndex).map ApplyTask.request)
      sm.st := by
  rw [apply_store, replay, List.foldl_map]
  simp only [execute_store]

theorem applyEntry_replay [Protobuf] (st : Storage) (entry : LogEntry) :
    applyEntry st entry = replay (commandsOf [entry]) st := by
  simp only [applyEntry, commandsOf, List.filterMap_cons, List.filterMap_nil]
  cases (Wire.parse entry.command : Option InternalRaftRequest) with
  | none => rfl
  | some request => cases request <;> rfl

/-- The follower path replays the commands of the entries. -/
theorem applyEntries_replay [Protobuf] (sm : StateMachine) (entries : List LogEntry) :
    sm.applyEntries entries = { sm with st := replay (commandsOf entries) sm.st } := by
  rw [applyEntries]
  congr 1
  induction entries generalizing sm with
  | nil => rfl
  | cons entry entries ih =>
    rw [List.foldl_cons, applyEntry_replay, ih ⟨replay (commandsOf [entry]) sm.st,sm.tasks⟩,
      ← replay_append, ← commandsOf_append]
    rfl

end StateMachine

/-- Tasks for consecutive indexes whose requests the log has are its commands there. -/
theorem commandsOf_tasks [Protobuf] {entries : List LogEntry} {tasks : List ApplyTask} {k : ℕ}
    (hindex : tasks.map ApplyTask.index = List.range' (k + 1) tasks.length)
    (hlogged : ∀ task ∈ tasks, ∃ e, entries[task.index - 1]? = some e ∧
      Wire.parse e.command = some task.request) :
    commandsOf ((entries.drop k).take tasks.length) = tasks.map ApplyTask.request := by
  induction tasks generalizing k with
  | nil => rfl
  | cons task tasks ih =>
    rw [List.map_cons, List.length_cons, List.range'_succ, List.cons.injEq] at hindex
    obtain ⟨e,he,hparse⟩ := hlogged task List.mem_cons_self
    rw [hindex.1, Nat.add_sub_cancel] at he
    obtain ⟨hk,rfl⟩ := List.getElem?_eq_some_iff.mp he
    rw [List.drop_eq_getElem_cons hk, List.length_cons, List.take_succ_cons, List.map_cons,
      ← ih hindex.2 fun task ht => hlogged task (List.mem_cons_of_mem _ ht)]
    exact List.filterMap_cons_some hparse

section Sorted
variable {α : Type} {f : α → ℕ} {xs : List α} {c : ℕ}

/-- Where a key ascends, the elements up to a bound stand in front. -/
theorem takeWhile_of_sorted (h : (xs.map f).Pairwise (· < ·)) :
    xs.takeWhile (fun x => f x ≤ c) = xs.filter (fun x => f x ≤ c) := by
  induction xs with
  | nil => rfl
  | cons x xs ih =>
    rw [List.map_cons, List.pairwise_cons] at h
    by_cases hx : f x ≤ c
    · rw [List.takeWhile_cons_of_pos (by simpa using hx), ih h.2,
        List.filter_cons_of_pos (by simpa using hx)]
    · have hlater : ∀ y ∈ xs, ¬f y ≤ c := by
        intro y hy
        have := h.1 _ (List.mem_map_of_mem hy)
        omega
      rw [List.takeWhile_cons_of_neg (by simpa using hx),
        List.filter_cons_of_neg (by simpa using hx)]
      exact (List.filter_eq_nil_iff.mpr (by simpa using hlater)).symm

theorem dropWhile_of_sorted (h : (xs.map f).Pairwise (· < ·)) :
    xs.dropWhile (fun x => f x ≤ c) = xs.filter (fun x => c < f x) := by
  induction xs with
  | nil => rfl
  | cons x xs ih =>
    rw [List.map_cons, List.pairwise_cons] at h
    by_cases hx : f x ≤ c
    · rw [List.dropWhile_cons_of_pos (by simpa using hx), ih h.2,
        List.filter_cons_of_neg (by simpa using hx)]
    · have hlater : ∀ y ∈ x::xs, c < f y := by
        intro y hy
        obtain rfl | hy := List.mem_cons.mp hy
        · omega
        · have := h.1 _ (List.mem_map_of_mem hy)
          omega
      rw [List.dropWhile_cons_of_neg (by simpa using hx)]
      exact (List.filter_eq_self.mpr (by simpa using hlater)).symm

end Sorted

/-- In a queue in the order of the log the tasks up to an index stand in front. -/
theorem mem_takeWhile_of_sorted {tasks : List ApplyTask} {c : ℕ} {task : ApplyTask}
    (hs : (tasks.map ApplyTask.index).Pairwise (· < ·)) (ht : task ∈ tasks)
    (hle : task.index ≤ c) : task ∈ tasks.takeWhile fun task => task.index ≤ c := by
  rw [takeWhile_of_sorted hs, List.mem_filter]
  exact ⟨ht,by simpa using hle⟩

namespace RaftNode

/-- What half of `match_index_`, with the response, reaches covers `last_applied_` and lies in
the log, and among the indexes it reaches those above `last_applied_`, and only those, have a
task in the queue. -/
def Covers (n : RaftNode) (response : AppendEntriesResponse) : Prop :=
  HalfReached (n.told response).matchIndex.values n.lastApplied ∧
  (∀ v ∈ (n.told response).matchIndex.values,
    HalfReached (n.told response).matchIndex.values v → v ≤ n.logs.lastLogIndex) ∧
  (∀ task ∈ n.stateMachine.tasks,
    HalfReached (n.told response).matchIndex.values task.index → n.lastApplied < task.index) ∧
  ∀ i ∈ List.range' (n.lastApplied + 1) (n.logs.lastLogIndex - n.lastApplied),
    HalfReached (n.told response).matchIndex.values i →
      ∃ task ∈ n.stateMachine.tasks, task.index = i

instance (n : RaftNode) (response : AppendEntriesResponse) : Decidable (n.Covers response) :=
  inferInstanceAs (Decidable (_ ∧ (∀ v ∈ (n.told response).matchIndex.values, _ → _ ≤ _) ∧
    (∀ task ∈ n.stateMachine.tasks, _ → _ < _) ∧
    ∀ i ∈ List.range' _ _, _ → ∃ task ∈ n.stateMachine.tasks, _ = _))

/-- The store is the replay of the log up to `last_applied_`, and the queue, in the order of the
log, has the requests that stand there. -/
structure Replayed [Protobuf] (kv : Storage) (n : RaftNode) : Prop where
  lastApplied : n.lastApplied = n.commitIndex
  commit_le : n.commitIndex ≤ n.logs.entries.length
  store : n.stateMachine.st = replay (commandsOf (n.logs.entries.take n.lastApplied)) kv
  sorted : (n.stateMachine.tasks.map ApplyTask.index).Pairwise (· < ·)
  logged : ∀ task ∈ n.stateMachine.tasks, 0 < task.index ∧
    ∃ e, n.logs.entries[task.index - 1]? = some e ∧ Wire.parse e.command = some task.request

namespace Replayed
variable [Protobuf] {cfg : RaftConfig} {kv : Storage} {n n' : RaftNode} {input : Input}
  {events : List Event}

theorem index_le (hr : n.Replayed kv) {task : ApplyTask} (ht : task ∈ n.stateMachine.tasks) :
    task.index ≤ n.logs.entries.length := by
  obtain ⟨hpos,e,he,-⟩ := hr.logged task ht
  obtain ⟨hlt,-⟩ := List.getElem?_eq_some_iff.mp he
  omega

/-- The tasks a commit executes are those of the indexes above `last_applied_`. -/
theorem executed (hr : n.Replayed kv)
    {response : AppendEntriesResponse} (hc : n.Covers response) (live : List ℕ) :
    (n.stateMachine.tasks.takeWhile fun task =>
        task.index ≤ ((n.told response).commitMiddle live).1.commitIndex).map ApplyTask.index =
      List.range' (n.lastApplied + 1)
        (((n.told response).commitMiddle live).1.commitIndex - n.lastApplied) := by
  obtain ⟨hcovered,hlog,hfresh,htasks⟩ := hc
  have hreached : ∀ i, i ≤ ((n.told response).commitMiddle live).1.commitIndex ↔
      HalfReached (n.told response).matchIndex.values i := fun i =>
    le_commitMiddle_iff _ _ i live
  have hle := (hreached _).mpr hcovered
  have hlast : ((n.told response).commitMiddle live).1.commitIndex ≤ n.logs.lastLogIndex :=
    hlog _ (commitMiddle_mem_values _ _ live) ((hreached _).mp le_rfl)
  refine (hr.sorted.sublist ((List.takeWhile_sublist _).map _)).eq_of_mem_iff
    List.pairwise_lt_range' fun i => ?_
  rw [List.mem_range'_1, List.mem_map]
  constructor
  · rintro ⟨task,ht,rfl⟩
    have hi : task.index ≤ ((n.told response).commitMiddle live).1.commitIndex := by
      simpa using List.mem_takeWhile_imp ht
    have hlt := hfresh task ((List.takeWhile_sublist _).subset ht) ((hreached _).mp hi)
    omega
  · intro hi
    have hmem : i ∈ List.range' (n.lastApplied + 1) (n.logs.lastLogIndex - n.lastApplied) := by
      rw [List.mem_range'_1]
      omega
    have hi' : i ≤ ((n.told response).commitMiddle live).1.commitIndex := by omega
    obtain ⟨task,ht,rfl⟩ := htasks i hmem ((hreached i).mp hi')
    exact ⟨task,mem_takeWhile_of_sorted hr.sorted ht hi',rfl⟩

theorem executed_commands (hr : n.Replayed kv) {response : AppendEntriesResponse}
    (hc : n.Covers response) (live : List ℕ) :
    commandsOf ((n.logs.entries.drop n.lastApplied).take
        (((n.told response).commitMiddle live).1.commitIndex - n.lastApplied)) =
      (n.stateMachine.tasks.takeWhile fun task =>
        task.index ≤ ((n.told response).commitMiddle live).1.commitIndex).map
          ApplyTask.request := by
  have hindex := hr.executed hc live
  have hcount := congrArg List.length hindex
  rw [List.length_map, List.length_range'] at hcount
  rw [← hcount] at hindex ⊢
  exact commandsOf_tasks hindex fun task ht =>
    (hr.logged task ((List.takeWhile_sublist _).subset ht)).2

/-- A log change that keeps what was applied or has a task in the queue. -/
theorem relog (hr : n.Replayed kv) {logs : RaftLog}
    (hlen : n.lastApplied ≤ logs.entries.length)
    (htake : logs.entries.take n.lastApplied = n.logs.entries.take n.lastApplied)
    (htasks : ∀ task ∈ n.stateMachine.tasks,
      logs.entries.take task.index = n.logs.entries.take task.index) :
    ({ n with logs := logs } : RaftNode).Replayed kv := by
  constructor
  · exact hr.lastApplied
  · exact hr.lastApplied ▸ hlen
  · rw [htake]
    exact hr.store
  · exact hr.sorted
  · intro task ht
    obtain ⟨hpos,e,he,hparse⟩ := hr.logged task ht
    exact ⟨hpos,e,by rw [getElem?_of_take_eq (htasks task ht) (by omega), he],hparse⟩

theorem congr (hr : n.Replayed kv) (logs : n'.logs.entries = n.logs.entries)
    (commit : n'.commitIndex = n.commitIndex) (applied : n'.lastApplied = n.lastApplied)
    (machine : n'.stateMachine = n.stateMachine) : n'.Replayed kv := by
  constructor
  · rw [applied, commit]
    exact hr.lastApplied
  · rw [logs, commit]
    exact hr.commit_le
  · rw [logs, machine, applied]
    exact hr.store
  · rw [machine]
    exact hr.sorted
  · rw [logs, machine]
    exact hr.logged

/-- A client's request is queued for the entry that is appended for it. -/
theorem queue (hr : n.Replayed kv) {sessionId requestId : ℕ} {request : InternalRaftRequest}
    (commit : n'.commitIndex = n.commitIndex) (applied : n'.lastApplied = n.lastApplied)
    (machine : n'.stateMachine = n.stateMachine.produceApplyTask
      ⟨n.logs.entries.length + 1,sessionId,requestId,request⟩)
    (hlog : n'.logs.entries = n.logs.entries ++
      [⟨n.currentTerm,n.logs.entries.length + 1,Wire.serialize request⟩]) :
    n'.Replayed kv := by
  have hgrows : n.logs.entries <+: n'.logs.entries := ⟨_,hlog.symm⟩
  constructor
  · rw [applied, commit]
    exact hr.lastApplied
  · rw [commit]
    exact hr.commit_le.trans hgrows.length_le
  · rw [machine, applied, take_of_isPrefix hgrows (hr.lastApplied ▸ hr.commit_le)]
    exact hr.store
  · rw [machine, StateMachine.produceApplyTask, List.map_append, List.pairwise_append]
    refine ⟨hr.sorted,List.pairwise_singleton _ _,?_⟩
    intro i hi j hj
    obtain ⟨task,ht,rfl⟩ := List.mem_map.mp hi
    obtain rfl := List.mem_singleton.mp hj
    exact Nat.lt_succ_of_le (hr.index_le ht)
  · intro task ht
    rw [machine] at ht
    obtain ht | ht := List.mem_append.mp ht
    · obtain ⟨hpos,e,he,hparse⟩ := hr.logged task ht
      exact ⟨hpos,e,getElem?_of_isPrefix hgrows he,hparse⟩
    · obtain rfl := List.mem_singleton.mp ht
      exact ⟨Nat.succ_pos _,⟨n.currentTerm,n.logs.entries.length + 1,Wire.serialize _⟩,
        by rw [hlog]; simp,Wire.parse_serialize _⟩

/-- A follower replays the entries of its log up to its new commit index. -/
theorem follow (hr : ({ n with logs := n'.logs } : RaftNode).Replayed kv)
    (happlied : n'.lastApplied = n'.commitIndex) (hle : n.lastApplied ≤ n'.lastApplied)
    (hlen : n'.commitIndex ≤ n'.logs.entries.length)
    (machine : n'.stateMachine = n.stateMachine.applyEntries
      ((n'.logs.entries.drop n.lastApplied).take (n'.lastApplied - n.lastApplied))) :
    n'.Replayed kv := by
  have hsplit : n'.logs.entries.take n'.lastApplied = n'.logs.entries.take n.lastApplied ++
      (n'.logs.entries.drop n.lastApplied).take (n'.lastApplied - n.lastApplied) := by
    rw [← List.take_add, Nat.add_sub_cancel' hle]
  have hstore : n.stateMachine.st =
      replay (commandsOf (n'.logs.entries.take n.lastApplied)) kv := hr.store
  rw [StateMachine.applyEntries_replay] at machine
  constructor
  · exact happlied
  · exact hlen
  · rw [machine, hsplit, commandsOf_append, replay_append, ← hstore]
  · rw [machine]
    exact hr.sorted
  · rw [machine]
    exact hr.logged

/-- A leader replays the requests of the tasks it executes. -/
theorem commit (hr : n.Replayed kv) (hfirst : n.logs.firstIndex = 1)
    {response : AppendEntriesResponse} (hc : n.Covers response) (live : List ℕ) :
    ((n.told response).commitMiddle live).1.Replayed kv := by
  have hle : n.lastApplied ≤ ((n.told response).commitMiddle live).1.commitIndex :=
    (le_commitMiddle_iff _ _ _ live).mpr hc.1
  have hlast := hc.2.1 _ (commitMiddle_mem_values _ _ live)
    ((le_commitMiddle_iff _ _ _ live).mp le_rfl)
  rw [RaftLog.lastLogIndex_eq hfirst] at hlast
  have hleft : ((n.told response).commitMiddle live).1.stateMachine.tasks.Sublist
      n.stateMachine.tasks := by
    change (n.stateMachine.apply _).1.tasks.Sublist _
    rw [StateMachine.apply_tasks]
    exact List.dropWhile_sublist _
  constructor
  · rfl
  · exact hlast
  · change (n.stateMachine.apply ((n.told response).commitMiddle live).1.commitIndex).1.st =
      replay (commandsOf (n.logs.entries.take
        ((n.told response).commitMiddle live).1.commitIndex)) kv
    rw [StateMachine.apply_replay, ← hr.executed_commands hc live, hr.store, ← replay_append,
      ← commandsOf_append, ← List.take_add, Nat.add_sub_cancel' hle]
  · exact hr.sorted.sublist (hleft.map _)
  · exact fun task ht => hr.logged task (hleft.subset ht)

theorem step (hr : n.Replayed kv) (h : Transition cfg n input n' events)
    (hfirst : n.logs.firstIndex = 1)
    (hcut : ∀ {sender callback request live},
      input = .receive sender (.appendEntries callback request) live → n.Cuts request →
        n.lastApplied < request.prevLogIndex ∧
        ∀ task ∈ n.stateMachine.tasks, task.index < request.prevLogIndex)
    (hcovers : ∀ {sender response live},
      input = .receive sender (.appendEntriesReply .appendEntries response) live →
        n.Raises response → n.Covers response) : n'.Replayed kv := by
  have hchange := h.logChange
  obtain ⟨htake,hlen⟩ := hchange.take_eq hfirst (hr.lastApplied ▸ hr.commit_le)
    fun hi hc => (hcut hi hc).1
  have hkept : ({ n with logs := n'.logs } : RaftNode).Replayed kv :=
    hr.relog hlen htake fun task ht =>
      (hchange.take_eq hfirst (hr.index_le ht) fun hi hc => (hcut hi hc).2 task ht).1
  have hprog := h.progress
  cases hprog with
  | kept commit applied machine _ => exact hkept.congr rfl commit applied machine
  | queued _ commit applied machine hlog _ _ =>
    rw [RaftLog.lastLogIndex_eq hfirst] at hlog machine
    exact hr.queue commit applied machine hlog
  | followed _ _ hcommit hview _ =>
    obtain ⟨happlied,hle,hlen',machine⟩ := follows (h.firstIndex.trans hfirst) hr.lastApplied
      (hr.lastApplied ▸ hlen) hcommit hview
    refine hkept.follow happlied ?_ hlen' machine
    rw [happlied, hr.lastApplied]
    exact hle
  | committed hraises => exact hr.commit hfirst (hcovers rfl hraises) _

end Replayed
end RaftNode

namespace Cluster

/-- No cut of a log reaches an entry that was applied or has a queued task. -/
def KeepsApplied (s : Cluster) (p : Packet) : Prop :=
  ∀ request ∈ p.body.appendRequest, (s.node p.receiver).Cuts request →
    (s.node p.receiver).lastApplied < request.prevLogIndex ∧
    ∀ task ∈ (s.node p.receiver).stateMachine.tasks, task.index < request.prevLogIndex

instance (s : Cluster) (p : Packet) : Decidable (KeepsApplied s p) :=
  inferInstanceAs (Decidable (∀ request ∈ p.body.appendRequest, _ → _ < _ ∧
    ∀ task ∈ (s.node p.receiver).stateMachine.tasks, _ < _))

/-- A leader commits exactly what it has tasks for. -/
def QueueCovers (s : Cluster) (p : Packet) : Prop :=
  ∀ response ∈ p.body.appendResponse, (s.node p.receiver).Raises response →
    (s.node p.receiver).Covers response

instance (s : Cluster) (p : Packet) : Decidable (QueueCovers s p) :=
  inferInstanceAs (Decidable (∀ response ∈ p.body.appendResponse, _ → RaftNode.Covers _ _))

/-- A step in which a log loses nothing it needs and a leader commits what its queue has. -/
def Lossless (s : Cluster) (p : Packet) : Prop := KeepsApplied s p ∧ QueueCovers s p

instance (s : Cluster) (p : Packet) : Decidable (Lossless s p) :=
  inferInstanceAs (Decidable (_ ∧ _))

/-- Every store is what the log up to `last_applied_` makes of the store at the start. -/
def StoresReplay [Protobuf] (kv : MemberId → Storage) (s : Cluster) : Prop :=
  ∀ m, (s.node m).lastApplied ≤ (s.node m).logs.lastLogIndex ∧ (s.node m).stateMachine.st =
    replay (commandsOf ((s.node m).logs.entries.take (s.node m).lastApplied)) (kv m)

theorem StoresReplay.of_replayed [Protobuf] {kv : MemberId → Storage} {s : Cluster}
    (hfirst : ∀ m, (s.node m).logs.firstIndex = 1) (h : ∀ m, (s.node m).Replayed (kv m)) :
    StoresReplay kv s := by
  intro m
  refine ⟨?_,(h m).store⟩
  rw [RaftLog.lastLogIndex_eq (hfirst m), (h m).lastApplied]
  exact (h m).commit_le

section Runs
variable [Protobuf] {C : ClusterConfig} {s : Cluster} {kv : MemberId → Storage}
  {labels : List Label}

theorem Run.replayed (h : Cluster.Run C (onDelivery Lossless) kv labels s) :
    ∀ m, (s.node m).Replayed (kv m) := by
  refine Run.invariant (P := fun s => ∀ m, (s.node m).Replayed (kv m)) ?_ ?_ ?_ h
  · exact fun m => ⟨rfl,le_rfl,rfl,.nil,by simp [Cluster.init, RaftNode.fresh]⟩
  · intro s s' hr hl
    rw [hl.node]
    exact hr
  · intro ls s l m₀ input n' events rest s' hrun hr hl ha m
    by_cases hm : m = m₀
    · subst hm
      rw [ha.node_self]
      refine (hr m).step ha.transition ((Run.addressed hrun).firstIndex m) ?_ ?_
      · intro sender callback request live hi hcut
        exact (hl.apply (ha.packet hi).1).1 request (Body.mem_appendRequest.mpr ⟨_,rfl⟩) hcut
      · intro sender response live hi hraises
        exact (hl.apply (ha.packet hi).1).2 response rfl hraises
    · rw [ha.node_ne hm]
      exact hr m

/-- Every store is the replay of its log, in a run whose steps are lossless. -/
theorem stores_replay (h : Cluster.Run C (onDelivery Lossless) kv labels s) :
    StoresReplay kv s :=
  .of_replayed (Run.addressed h).firstIndex (Run.replayed h)

end Runs

section Trio
attribute [local instance] Proto3.protobuf

theorem stores_replay_trio : ∃ s, Cluster.Run trio (onDelivery Lossless)
    (fun _ => Storage.empty) [.electionTimeout 1,delivery 0,delivery 1,putting 1 10,delivery 1,
      delivery 2,.heartbeatTimeout 1,delivery 2] s ∧
      ((s.node 1).lastApplied = 1 ∧ (s.node 2).lastApplied = 1) ∧
      StoresReplay (fun _ => Storage.empty) s := by
  obtain ⟨s,hs,happlied⟩ : ∃ s, Cluster.Run trio (onDelivery Lossless)
      (fun _ => Storage.empty) [.electionTimeout 1,delivery 0,delivery 1,putting 1 10,delivery 1,
        delivery 2,.heartbeatTimeout 1,delivery 2] s ∧
      ((s.node 1).lastApplied = 1 ∧ (s.node 2).lastApplied = 1) :=
    Generic.Run.of_check (by decide) (by decide)
  exact ⟨s,hs,happlied,stores_replay hs⟩

/-- Member 2 got its first entry as a follower and commits it as leader together with an own
one, for which alone it has a task. -/
theorem entry_skipped : ∃ s, Cluster.Run trio anyStep (fun _ => Storage.empty)
    [.electionTimeout 1,delivery 0,delivery 1,
      .client 1 .ok .put (Wire.serialize (⟨[2],[10],∅⟩ : Kv.PutRequest)) 7 0,delivery 1,delivery 1,
      .electionTimeout 2,delivery 4,delivery 4,putting 2 20,delivery 5,delivery 5] s ∧
      ¬StoresReplay (fun _ => Storage.empty) s := by
  obtain ⟨s,hs,hstore,hlog⟩ : ∃ s, Cluster.Run trio anyStep (fun _ => Storage.empty)
      [.electionTimeout 1,delivery 0,delivery 1,
        .client 1 .ok .put (Wire.serialize (⟨[2],[10],∅⟩ : Kv.PutRequest)) 7 0,delivery 1,
        delivery 1,.electionTimeout 2,delivery 4,delivery 4,putting 2 20,delivery 5,
        delivery 5] s ∧
      (s.node 2).stateMachine.st [2] = none ∧
      replay (commandsOf ((s.node 2).logs.entries.take (s.node 2).lastApplied)) Storage.empty
        [2] = some [10] :=
    Generic.Run.of_check (Generic.accepted_of_forall (fun _ _ => trivial) _ _) (by decide)
  refine ⟨s,hs,fun h => ?_⟩
  rw [← (h 2).2, hstore] at hlog
  cases hlog

end Trio
end Cluster
end Foskv.Raft
