import Foskv.Raft.Replay
import Foskv.Raft.Sessions

/-! The leader's and the follower's way of applying commands, compared command by command. -/
namespace Foskv.Raft

/-- What a client is to be told of its command when it meets a store. -/
def InternalRaftRequest.answer (st : Storage) : InternalRaftRequest → Option Kv.Response
  | .kvPut _ => some (.put ⟨true,.noError,none⟩)
  | .kvGet request => some (match st.get request.key with
    | some value => .get ⟨true,.noError,none⟩ (some ⟨request.key,value⟩)
    | none => .get ⟨false,.kvGetFailed,none⟩ none)
  | .kvDelete _ => some (.delete ⟨true,.noError,none⟩)
  | .notSet => none

namespace StateMachine

theorem execute_answer (st : Storage) (request : InternalRaftRequest) :
    (execute st request).2 = request.answer st := by
  cases request with
  | kvGet request =>
    simp only [execute, applyKvGet, InternalRaftRequest.answer]
    cases st.get request.key <;> rfl
  | _ => rfl

/-- Each task with its place in the queue is executed on the store that the requests before it
leave. -/
def replyTo (sm : StateMachine) (task : ApplyTask × ℕ) : ApplyTask × InvokeTask :=
  (task.1,⟨task.1.requestId,
    task.1.request.answer (replay ((sm.tasks.take task.2).map ApplyTask.request) sm.st)⟩)

theorem applyTasks_replies (commitIndex : ℕ) (st : Storage) (tasks : List ApplyTask) :
    (applyTasks commitIndex st tasks).2.2 =
      (tasks.takeWhile (fun task => task.index ≤ commitIndex)).zipIdx.map (replyTo ⟨st,tasks⟩) := by
  induction tasks generalizing st with
  | nil => rfl
  | cons task tasks ih =>
    by_cases h : task.index ≤ commitIndex
    · simp only [applyTasks, h, if_true, ih, decide_true, List.takeWhile_cons_of_pos,
        List.zipIdx_cons, List.zipIdx_succ, List.map_cons, List.map_map, execute_answer]
      congr 1
      refine List.map_congr_left fun e _ => ?_
      simp only [Function.comp_apply, replyTo, List.take_succ_cons, List.map_cons, replay,
        List.foldl_cons, execute_store]
    · simp [applyTasks, h]

/-- The deferred replies that `apply(transport, commit_index)` pushes to sessions. -/
def pushes (sm : StateMachine) (live : List ℕ) (commitIndex : ℕ) : List (ApplyTask × InvokeTask) :=
  (sm.apply commitIndex).2.filter fun done => done.1.sessionId ∈ live

theorem pushes_eq (sm : StateMachine) (live : List ℕ) (commitIndex : ℕ) :
    sm.pushes live commitIndex =
      ((sm.tasks.takeWhile (fun task => task.index ≤ commitIndex)).zipIdx.filter
        fun task => task.1.sessionId ∈ live).map sm.replyTo := by
  rw [pushes, apply, applyTasks_replies, List.filter_map]
  rfl

end StateMachine

/-- A commit hands exactly these replies to the sessions. -/
theorem commitMiddle_pushes [Protobuf] (n : RaftNode) (live : List ℕ) :
    replies (n.commitMiddle live).2 = n.stateMachine.pushes live n.matchIndex.middle :=
  replies_commitMiddle n live

/-- Cutting a list and numbering its elements commute. -/
theorem takeWhile_zipIdx {α : Type} (p : α → Bool) (xs : List α) (k : ℕ) :
    (xs.takeWhile p).zipIdx k = (xs.zipIdx k).takeWhile fun x => p x.1 := by
  induction xs generalizing k with
  | nil => rfl
  | cons x xs ih => cases h : p x <;> simp [h, ih]

section Agreement
variable [Protobuf]

/-- The entries of a queue carry its requests. -/
theorem commandsOf_filter (c : ℕ) {entries : List LogEntry} {tasks : List ApplyTask}
    (h : entries.map (fun e => (e.index,e.command)) =
      tasks.map fun task => (task.index,Wire.serialize task.request)) :
    commandsOf (entries.filter fun e => e.index ≤ c) =
      (tasks.filter fun task => task.index ≤ c).map ApplyTask.request := by
  induction tasks generalizing entries with
  | nil => simp [List.map_eq_nil_iff.mp h, commandsOf]
  | cons task tasks ih =>
    obtain ⟨e,es,rfl,he,hes⟩ := List.map_eq_cons_iff.mp h
    obtain ⟨hindex,hcommand⟩ := Prod.mk.inj he
    by_cases hle : task.index ≤ c
    · rw [List.filter_cons_of_pos (by simpa [hindex] using hle),
        List.filter_cons_of_pos (by simpa using hle), List.map_cons, ← ih hes]
      exact List.filterMap_cons_some (by rw [hcommand, Wire.parse_serialize])
    · rw [List.filter_cons_of_neg (by simpa [hindex] using hle),
        List.filter_cons_of_neg (by simpa using hle), ih hes]

/-- For one task and one entry per command at consecutive indexes both paths leave the same
store; the leader keeps the tasks above the commit index and pushes to the open sessions the
reply to each task it executes. -/
theorem apply_paths_agree (sm : StateMachine) (entries : List LogEntry) (start : ℕ)
    (hindex : sm.tasks.map ApplyTask.index = List.range' start sm.tasks.length)
    (hentries : entries.map (fun e => (e.index,e.command)) =
      sm.tasks.map fun task => (task.index,Wire.serialize task.request))
    (commitIndex : ℕ) (live : List ℕ) (queue : List ApplyTask) :
    (sm.apply commitIndex).1.st = (StateMachine.applyEntries ⟨sm.st,queue⟩
      (entries.filter fun e => e.index ≤ commitIndex)).st ∧
    (sm.apply commitIndex).1.tasks = sm.tasks.filter (fun task => commitIndex < task.index) ∧
    sm.pushes live commitIndex = (sm.tasks.zipIdx.filter fun task =>
      task.1.index ≤ commitIndex ∧ task.1.sessionId ∈ live).map sm.replyTo := by
  have hsorted : (sm.tasks.map ApplyTask.index).Pairwise (· < ·) := by
    rw [hindex]
    exact List.pairwise_lt_range'
  refine ⟨?_,?_,?_⟩
  · rw [StateMachine.apply_replay, takeWhile_of_sorted hsorted, StateMachine.applyEntries_replay,
      commandsOf_filter commitIndex hentries]
  · rw [StateMachine.apply_tasks, dropWhile_of_sorted hsorted]
  · have hnumbered : (sm.tasks.zipIdx.map fun task => task.1.index).Pairwise (· < ·) := by
      have hfst : sm.tasks.zipIdx.map (fun task => task.1.index) =
          sm.tasks.map ApplyTask.index := by
        conv_rhs => rw [← List.zipIdx_map_fst 0 sm.tasks, List.map_map]
        rfl
      rwa [hfst]
    rw [StateMachine.pushes_eq, takeWhile_zipIdx,
      takeWhile_of_sorted (f := fun task : ApplyTask × ℕ => task.1.index) hnumbered,
      List.filter_filter]
    congr 1
    refine List.filter_congr fun task _ => ?_
    rw [Bool.decide_and, Bool.and_comm]

end Agreement

section Examples
attribute [local instance] Proto3.protobuf

/-- A put and a get of its key, from two sessions, and a delete above the commit index. -/
private def three : List ApplyTask :=
  [⟨3,1,10,.kvPut ⟨[1],[2],∅⟩⟩,⟨4,2,11,.kvGet ⟨[1],∅⟩⟩,⟨5,1,12,.kvDelete ⟨[1],∅⟩⟩]

theorem apply_paths_agree_three :
    (StateMachine.mk Storage.empty three).pushes [2] 4 =
      [(⟨4,2,11,.kvGet ⟨[1],∅⟩⟩,⟨11,some (.get ⟨true,.noError,none⟩ (some ⟨[1],[2]⟩))⟩)] :=
  (apply_paths_agree ⟨Storage.empty,three⟩
    (three.map fun task => ⟨1,task.index,Wire.serialize task.request⟩) 3 rfl rfl 4 [2]
    []).2.2.trans (by decide)

end Examples
end Foskv.Raft
