import Foskv.Rpc.Protobuf
import Foskv.Storage.Storage

/-! The key-value state machine and its two ways of applying commands: the leader's queue
of client requests and the follower's span of log entries. Its store never fails. -/
namespace Foskv.Raft

/-- A client request waiting for its log entry to be committed. -/
structure ApplyTask where
  index : ℕ
  sessionId : ℕ
  requestId : ℕ
  request : InternalRaftRequest
  deriving DecidableEq, Repr

/-- The deferred reply pushed to a session; `none` is the empty `std::function`. -/
structure InvokeTask where
  requestId : ℕ
  response : Option Kv.Response
  deriving DecidableEq, Repr

structure StateMachine where
  st : Storage
  tasks : List ApplyTask

def produceRpcResponseHeader (success : Bool) (errorCode : Rpc.RpcError)
    (redirect : Option Rpc.Redirect) : Rpc.ResponseHeader := ⟨success,errorCode,redirect⟩

def applyKvPut (st : Storage) (request : Kv.PutRequest) : Storage × Kv.Response :=
  (st.put request.key request.value,.put (produceRpcResponseHeader true .noError none))

/-- A missing key is a failed get. -/
def applyKvGet (st : Storage) (request : Kv.GetRequest) : Storage × Kv.Response :=
  match st.get request.key with
  | none => (st,.get (produceRpcResponseHeader false .kvGetFailed none) none)
  | some value =>
    (st,.get (produceRpcResponseHeader true .noError none) (some ⟨request.key,value⟩))

def applyKvDelete (st : Storage) (request : Kv.DeleteRequest) : Storage × Kv.Response :=
  (st.delete request.key,.delete (produceRpcResponseHeader true .noError none))

namespace StateMachine

def produceApplyTask (sm : StateMachine) (task : ApplyTask) : StateMachine :=
  { sm with tasks := sm.tasks ++ [task] }

/-- The switch of the leader path. -/
def execute (st : Storage) : InternalRaftRequest → Storage × Option Kv.Response
  | .kvPut request => let r := applyKvPut st request; (r.1,some r.2)
  | .kvGet request => let r := applyKvGet st request; (r.1,some r.2)
  | .kvDelete request => let r := applyKvDelete st request; (r.1,some r.2)
  | .notSet => (st,none)

/-- The loop of `apply(transport, commit_index)` over the queue: the store, the tasks left
and the executed tasks with their replies. -/
def applyTasks (commitIndex : ℕ) : Storage → List ApplyTask →
    Storage × List ApplyTask × List (ApplyTask × InvokeTask)
  | st,[] => (st,[],[])
  | st,task::tasks =>
    if task.index ≤ commitIndex then
      let run := execute st task.request
      let rest := applyTasks commitIndex run.1 tasks
      (rest.1,rest.2.1,(task,⟨task.requestId,run.2⟩)::rest.2.2)
    else (st,task::tasks,[])

/-- `apply(transport, commit_index)`, with the executed tasks in order. -/
def apply (sm : StateMachine) (commitIndex : ℕ) :
    StateMachine × List (ApplyTask × InvokeTask) :=
  let r := applyTasks commitIndex sm.st sm.tasks
  (⟨r.1,r.2.1⟩,r.2.2)

section Entries
variable [Protobuf]

/-- One round of the follower path; an unreadable command is skipped. -/
def applyEntry (st : Storage) (entry : LogEntry) : Storage :=
  match (Wire.parse entry.command : Option InternalRaftRequest) with
  | none => st
  | some (.kvPut request) => st.put request.key request.value
  | some (.kvGet _) => st
  | some (.kvDelete request) => st.delete request.key
  | some .notSet => st

/-- `apply(entries)`. -/
def applyEntries (sm : StateMachine) (entries : List LogEntry) : StateMachine :=
  { sm with st := entries.foldl applyEntry sm.st }

end Entries

/-- The queue is cut where its first task above the commit index stands. -/
theorem applyTasks_tasks (commitIndex : ℕ) (st : Storage) (tasks : List ApplyTask) :
    (applyTasks commitIndex st tasks).2.1 =
      tasks.dropWhile (fun task => task.index ≤ commitIndex) := by
  induction tasks generalizing st with
  | nil => rfl
  | cons task tasks ih =>
    by_cases h : task.index ≤ commitIndex
    · simp [applyTasks, h, ih]
    · simp [applyTasks, h]

theorem applyTasks_executed (commitIndex : ℕ) (st : Storage) (tasks : List ApplyTask) :
    (applyTasks commitIndex st tasks).2.2.map Prod.fst =
      tasks.takeWhile (fun task => task.index ≤ commitIndex) := by
  induction tasks generalizing st with
  | nil => rfl
  | cons task tasks ih =>
    by_cases h : task.index ≤ commitIndex
    · simp [applyTasks, h, ih]
    · simp [applyTasks, h]

/-- The store runs through the executed requests in order. -/
theorem applyTasks_store (commitIndex : ℕ) (st : Storage) (tasks : List ApplyTask) :
    (applyTasks commitIndex st tasks).1 =
      (tasks.takeWhile (fun task => task.index ≤ commitIndex)).foldl
        (fun st task => (execute st task.request).1) st := by
  induction tasks generalizing st with
  | nil => rfl
  | cons task tasks ih =>
    by_cases h : task.index ≤ commitIndex
    · simp [applyTasks, h, ih]
    · simp [applyTasks, h]

/-- What `apply` leaves in the queue, what it executes and the store it leaves. -/
theorem apply_tasks (sm : StateMachine) (commitIndex : ℕ) : (sm.apply commitIndex).1.tasks =
    sm.tasks.dropWhile (fun task => task.index ≤ commitIndex) :=
  applyTasks_tasks commitIndex sm.st sm.tasks

theorem apply_executed (sm : StateMachine) (commitIndex : ℕ) :
    (sm.apply commitIndex).2.map Prod.fst =
      sm.tasks.takeWhile (fun task => task.index ≤ commitIndex) :=
  applyTasks_executed commitIndex sm.st sm.tasks

theorem apply_store (sm : StateMachine) (commitIndex : ℕ) : (sm.apply commitIndex).1.st =
    (sm.tasks.takeWhile (fun task => task.index ≤ commitIndex)).foldl
      (fun st task => (execute st task.request).1) sm.st :=
  applyTasks_store commitIndex sm.st sm.tasks

end StateMachine
end Foskv.Raft
