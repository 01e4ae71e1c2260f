import Foskv.Raft.Progress
import Foskv.Rpc.Framing
import Foskv.Rpc.Proto3
import Mathlib.Algebra.Order.Group.Multiset
import Mathlib.Tactic.Abel

/-! One process: its node, the sessions of its provider with their reader and writer loops, and
the replies that `StateMachine::apply` hands from the node to the sessions. -/
namespace Foskv.Raft

/-- The functions that the constructor of `RaftNode` registers. -/
inductive Handler
  | requestVote
  | appendEntries
  | installSnapshot
  | kv (method : KvMethod)
  deriving DecidableEq, Repr

/-- The function of a task in a session's queue: a handler, or the closure that `apply` made
when it executed a command. -/
inductive Invoke
  | handler (handler : Handler)
  | applied (task : ApplyTask) (response : Option Kv.Response)
  deriving DecidableEq, Repr

abbrev SessionTask := Rpc.InvokeTask Invoke

/-- The map after the constructor. -/
def invokes : Rpc.InvokeMap Invoke :=
  let invokes : Rpc.InvokeMap Invoke := fun _ => none
  let invokes := invokes.registerInvoke .kRaft .kRaftRequestVote (.handler .requestVote)
  let invokes := invokes.registerInvoke .kRaft .kRaftAppendEntries (.handler .appendEntries)
  let invokes := invokes.registerInvoke .kRaft .kRaftInstallSnapshot (.handler .installSnapshot)
  let invokes := invokes.registerInvoke .kKv .kKvPut (.handler (.kv .put))
  let invokes := invokes.registerInvoke .kKv .kKvGet (.handler (.kv .get))
  invokes.registerInvoke .kKv .kKvDelete (.handler (.kv .delete))

/-- The coroutine `produce_invoke_tasks`: in its loop, between shutting the queue down and
removing the session, or finished. -/
inductive Reader
  | reading
  | closing
  | closed
  deriving DecidableEq, Repr

/-- The coroutine `consume_invoke_tasks`, by what it awaits. -/
inductive Writer
  | idle
  /-- It has found the queue empty. -/
  | waiting
  | invoking (task : SessionTask)
  /-- It writes a response; `origin` is the executed task that it replies to. -/
  | responding (frame : Rpc.ResponseFrame) (origin : Option ApplyTask)
  | closing
  | closed
  deriving DecidableEq, Repr

/-- A response frame that has been written. -/
structure Reply where
  requestId : UInt64
  origin : Option ApplyTask
  deriving DecidableEq, Repr

/-- A session with its queue `tasks`; `read` and `written` are the frames that have passed. -/
structure Session where
  queue : List SessionTask
  isShutdown : Bool
  reader : Reader
  writer : Writer
  read : List UInt64
  written : List Reply

def Session.new : Session := ⟨[],false,.reading,.idle,[],[]⟩

/-- A request of a session whose handler queued a task and returned 0, and how many sessions had
been assigned by then. -/
structure Deferral where
  session : ℕ
  requestId : UInt64
  task : ApplyTask
  sessions : ℕ
  deriving DecidableEq, Repr

/-- `sessionId` is `session_id_` of the manager and `live` the keys of its map. A session keeps
its object as long as anyone holds it. -/
structure Process where
  node : RaftNode
  sessionId : ℕ
  live : List ℕ
  session : ℕ → Session
  /-- The tasks the running `apply` has executed and not yet handed over. -/
  applying : List (ApplyTask × InvokeTask)
  /-- The reply whose session has been found, to be pushed there. -/
  handing : Option (ApplyTask × InvokeTask)
  deferred : List Deferral

def Process.init (n : RaftNode) : Process where
  node := n
  sessionId := 0
  live := []
  session _ := .new
  applying := []
  handing := none
  deferred := []

/-- What the coroutines of one session do. -/
inductive Action
  /-- The reader gets a whole request frame. -/
  | read (frame : Rpc.RequestFrame)
  | readFailed
  | readerClosed
  | pop
  | invoke (io : DiskOutcome)
  | written (ok : Bool)
  | writerClosed

namespace Process

inductive Label
  /-- `SessionManager::assign` for a new connection. -/
  | accept
  | session (s : ℕ) (action : Action)
  | electionTimeout
  | heartbeatTimeout
  /-- A response of another member reaches its callback. -/
  | callback (io : DiskOutcome) (sender : MemberId) (body : Body)
  /-- `apply` looks the session of its next executed task up. -/
  | sessionAt
  /-- It pushes the reply to the session it has found. -/
  | push
  /-- `SessionManager::shutdown`. -/
  | shutdown

/-- `apply` runs under the node's mutex. -/
def mutexFree (p : Process) : Bool := p.applying.isEmpty && p.handing.isNone

def update (p : Process) (s : ℕ) (session : Session) : Process :=
  { p with session := Function.update p.session s session }

def remove (p : Process) (s : ℕ) : Process := { p with live := p.live.erase s }

end Process

section Handlers
variable [Protobuf] [PeerProtobuf]

/-- A request that is not stale makes the coroutine end without a value. -/
def RaftNode.handleInstallSnapshotRequest (cfg : RaftConfig) (n : RaftNode)
    (request : InstallSnapshotRequest) : Option InstallSnapshotResponse :=
  if request.term < n.currentTerm then some ⟨n.produceResponseHeader cfg⟩ else none

/-- Whether the payload gets a handler as far as the mutex. -/
def Handler.parses (reqPayload : Bytes) : Handler → Bool
  | .requestVote => (PeerProtobuf.parseRequestVoteRequest reqPayload).isSome
  | .appendEntries => (PeerProtobuf.parseAppendEntriesRequest reqPayload).isSome
  | .installSnapshot => (PeerProtobuf.parseInstallSnapshotRequest reqPayload).isSome
  | .kv .put => (Wire.parse reqPayload : Option Kv.PutRequest).isSome
  | .kv .get => (Wire.parse reqPayload : Option Kv.GetRequest).isSome
  | .kv .delete => (Wire.parse reqPayload : Option Kv.DeleteRequest).isSome

/-- What a KV handler returns: the size 0 stands for the empty payload. -/
def kvResult (events : List Event) : Result Bytes :=
  match events.getLast? with
  | some (.answered _ _ (.error e)) => .error e
  | some (.answered _ _ (.ok (some response))) => .ok (PeerProtobuf.kvResponse response)
  | _ => .ok []

/-- The node after a handler, the tasks it has queued and its result. -/
def Handler.run (cfg : RaftConfig) (n : RaftNode) (io : DiskOutcome) (reqPayload : Bytes)
    (sessionId requestId : ℕ) : Handler → Option (RaftNode × List ApplyTask × Result Bytes)
  | .requestVote =>
    match PeerProtobuf.parseRequestVoteRequest reqPayload with
    | none => some (n,[],.error .requestVoteRequestParseFailed)
    | some request =>
      let r := n.handleRequestVoteRequest cfg io request
      some (r.1,[],.ok (PeerProtobuf.requestVoteResponse r.2))
  | .appendEntries =>
    match PeerProtobuf.parseAppendEntriesRequest reqPayload with
    | none => some (n,[],.error .appendEntriesRequestParseFailed)
    | some request => do
      let (n,_,response) ← n.handleAppendEntriesRequest cfg io request
      return (n,[],.ok (PeerProtobuf.appendEntriesResponse response))
  | .installSnapshot =>
    match PeerProtobuf.parseInstallSnapshotRequest reqPayload with
    | none => some (n,[],.error .installSnapshotRequestParseFailed)
    | some request => do
      let response ← n.handleInstallSnapshotRequest cfg request
      return (n,[],.ok (PeerProtobuf.installSnapshotResponse response))
  | .kv method => do
    let (n,events) ← n.client cfg io reqPayload sessionId requestId method
    return (n,(enqueued events).map Prod.fst,kvResult events)

/-- The end of a round of the writer: a response to write, or nothing. -/
def Session.finish (t : Session) (requestId : UInt64) (result : Result Bytes)
    (origin : Option ApplyTask) : Session :=
  { t with writer := match Rpc.respond requestId result with
    | none => .idle
    | some frame => .responding frame origin }

/-- One step of the reader or the writer apart from the call of `invoke_`. A writer that has found
the queue empty gives up as soon as the queue is shut down. -/
def Session.step (t : Session) : Action → Option Session
  | .read frame =>
    if t.reader = .reading then
      some { t with
        read := t.read ++ [frame.1.requestId]
        queue := t.queue ++ (Rpc.invokeTask invokes frame).toList }
    else none
  | .readFailed =>
    if t.reader = .reading then some { t with reader := .closing, isShutdown := true } else none
  | .readerClosed => if t.reader = .closing then some { t with reader := .closed } else none
  | .pop =>
    match t.writer,t.queue with
    | .idle,[] => some { t with writer := .waiting }
    | .idle,task::queue => some { t with writer := .invoking task, queue := queue }
    | .waiting,queue =>
      if t.isShutdown then some { t with writer := .closing }
      else
        match queue with
        | [] => none
        | task::queue => some { t with writer := .invoking task, queue := queue }
    | _,_ => none
  | .invoke _ => none
  | .written ok =>
    match t.writer with
    | .responding frame origin =>
      if ok then
        some { t with writer := .idle, written := t.written ++ [⟨frame.1.requestId,origin⟩] }
      else some { t with writer := .closing }
    | _ => none
  | .writerClosed => if t.writer = .closing then some { t with writer := .closed } else none

/-- Whether the session leaves the manager's map. -/
def Action.removes : Action → Bool
  | .readerClosed | .writerClosed => true
  | _ => false

/-- The replies that `apply` has to hand over. -/
def replies (events : List Event) : List (ApplyTask × InvokeTask) :=
  events.filterMap fun
    | .replied _ task invokeTask => some (task,invokeTask)
    | _ => none

def Body.isReply : Body → Bool
  | .requestVoteReply _ | .appendEntriesReply .. => true
  | _ => false

namespace Process

/-- The writer of session `s` calls the function of its task. A handler that gets past its parser
needs the mutex; calling an empty function throws. -/
def invoke (cfg : RaftConfig) (p : Process) (s : ℕ) (io : DiskOutcome) : Option Process :=
  match (p.session s).writer with
  | .invoking task =>
    match task.invoke with
    | .applied origin response => do
      let response ← response
      return p.update s ((p.session s).finish task.requestId
        (.ok (PeerProtobuf.kvResponse response)) (some origin))
    | .handler handler =>
      if handler.parses task.reqPayload ∧ ¬p.mutexFree then none
      else do
        let (n,queued,result) ←
          handler.run cfg p.node io task.reqPayload s task.requestId.toNat
        return { p.update s ((p.session s).finish task.requestId result none) with
          node := n
          deferred := p.deferred ++
            queued.map fun queued => ⟨s,task.requestId,queued,p.sessionId⟩ }
  | _ => none

/-- The sessions that `apply` finds open are looked up one by one, as it pushes its replies. -/
def step (cfg : RaftConfig) (p : Process) : Label → Option Process
  | .accept => some { p with sessionId := p.sessionId + 1, live := p.live ++ [p.sessionId] }
  | .session s action =>
    if s < p.sessionId then
      match action with
      | .invoke io => p.invoke cfg s io
      | action => do
        let t ← (p.session s).step action
        return if action.removes then (p.update s t).remove s else p.update s t
    else none
  | .electionTimeout =>
    if p.mutexFree then some { p with node := (p.node.startElectionTimeout cfg).1 } else none
  | .heartbeatTimeout =>
    if p.mutexFree then some { p with node := (p.node.startHeartbeatTimeout cfg).1 } else none
  | .callback io sender body =>
    if p.mutexFree ∧ body.isReply then do
      let (n,events) ← p.node.receive cfg io sender (List.range p.sessionId) body
      return { p with node := n, applying := replies events }
    else none
  | .sessionAt =>
    match p.handing,p.applying with
    | none,done::applying => some { p with
        applying := applying
        handing := if done.1.sessionId ∈ p.live then some done else none }
    | _,_ => none
  | .push =>
    match p.handing with
    | some (task,invokeTask) =>
      let t := p.session task.sessionId
      some { p.update task.sessionId { t with queue := t.queue ++
          [⟨UInt64.ofNat task.requestId,[],.applied task invokeTask.response⟩] } with
        handing := none }
    | none => none
  | .shutdown => some { p with live := [] }

/-- A run of one process from its start on a node. -/
abbrev Run (cfg : RaftConfig) (n : RaftNode) : List Label → Process → Prop :=
  Generic.Run (step cfg) (fun _ _ => True) (.init n)

end Process

section HandlerSteps
variable {cfg : RaftConfig} {n n' : RaftNode} {io : DiskOutcome} {events : List Event}

omit [PeerProtobuf] in
/-- Only the handler of a KV request touches the queue and does not commit. -/
theorem RaftNode.Transition.tasks_eq {input : Input} (h : Transition cfg n input n' events)
    (hclient : ∀ method reqPayload s r, input ≠ .client method reqPayload s r)
    (hcommit : ∀ sender response live,
      input ≠ .receive sender (.appendEntriesReply .appendEntries response) live) :
    n'.stateMachine.tasks = n.stateMachine.tasks := by
  cases h.progress with
  | kept _ _ machine _ => rw [machine]
  | queued _ _ _ _ _ _ _ => exact absurd rfl (hclient _ _ _ _)
  | followed _ _ _ hview _ =>
    obtain ⟨-,-,machine⟩ | ⟨_,-,-,machine⟩ := hview
    · rw [machine]
    · rw [machine]
      rfl
  | committed _ => exact absurd rfl (hcommit _ _ _)

/-- A KV handler queues nothing, or its one request while it returns 0. -/
theorem RaftNode.Transition.client_queues {method : KvMethod} {reqPayload : Bytes} {s r : ℕ}
    (h : Transition cfg n (.client method reqPayload s r) n' events) :
    (enqueued events = [] ∧ n'.stateMachine.tasks = n.stateMachine.tasks) ∨
      ∃ task, (enqueued events).map Prod.fst = [task] ∧
        n'.stateMachine.tasks = n.stateMachine.tasks ++ [task] ∧
        task.sessionId = s ∧ task.requestId = r ∧ kvResult events = .ok [] := by
  cases h with
  | idle hevents =>
    refine Or.inl ⟨?_,rfl⟩
    obtain rfl | ⟨_,_,_,rfl⟩ := hevents <;> rfl
  | queued hrole =>
    refine Or.inr ⟨_,?_,rfl,rfl,rfl,?_⟩
    · rw [List.cons_append]
      change List.map Prod.fst (_ :: enqueued (_ ++ _)) = _
      rw [enqueued_append, unqueued_broadcast.2]
      rfl
    · rw [kvResult, List.getLast?_append]
      rfl

/-- So does every handler. -/
theorem Handler.run_queues {handler : Handler} {reqPayload : Bytes} {s r : ℕ}
    {queued : List ApplyTask} {result : Result Bytes}
    (h : handler.run cfg n io reqPayload s r = some (n',queued,result)) :
    (queued = [] ∧ n'.stateMachine.tasks = n.stateMachine.tasks) ∨
      ∃ task, queued = [task] ∧ n'.stateMachine.tasks = n.stateMachine.tasks ++ [task] ∧
        task.sessionId = s ∧ task.requestId = r ∧ result = .ok [] := by
  cases handler with
  | requestVote =>
    rw [run] at h
    split at h
    · cases h
      exact Or.inl ⟨rfl,rfl⟩
    · rename_i request _
      cases h
      have htransition :=
        @RaftNode.handleRequestVoteRequest_transition _ cfg n io cfg.memberId [] request
      exact Or.inl ⟨rfl,htransition.tasks_eq (by simp) (by simp)⟩
  | appendEntries =>
    rw [run] at h
    split at h
    · cases h
      exact Or.inl ⟨rfl,rfl⟩
    · rename_i request _
      obtain ⟨⟨n₁,es,response⟩,hrun,h⟩ := Option.bind_eq_some_iff.mp h
      cases h
      have htransition : n.Transition cfg
          (.receive cfg.memberId (.appendEntries .appendEntries request) []) n' _ :=
        RaftNode.handleAppendEntriesRequest_transition hrun
      exact Or.inl ⟨rfl,htransition.tasks_eq (by simp) (by simp)⟩
  | installSnapshot =>
    rw [run] at h
    split at h
    · cases h
      exact Or.inl ⟨rfl,rfl⟩
    · obtain ⟨response,-,h⟩ := Option.bind_eq_some_iff.mp h
      cases h
      exact Or.inl ⟨rfl,rfl⟩
  | kv method =>
    obtain ⟨⟨n₁,es⟩,hclient,h⟩ := Option.bind_eq_some_iff.mp h
    cases h
    obtain ⟨hnone,htasks⟩ | htask := (RaftNode.client_transition hclient).client_queues
    · exact Or.inl ⟨by rw [hnone]; rfl,htasks⟩
    · exact Or.inr htask

omit [Protobuf] [PeerProtobuf] in
theorem replies_append (es es' : List Event) : replies (es ++ es') = replies es ++ replies es' :=
  List.filterMap_append

omit [Protobuf] [PeerProtobuf] in
/-- The commit of a leader replies to the tasks it executes for sessions that are open. -/
theorem replies_commitMiddle (n : RaftNode) (live : List ℕ) :
    replies (n.commitMiddle live).2 = (n.stateMachine.apply n.matchIndex.middle).2.filter
      (fun done => done.1.sessionId ∈ live) := by
  rw [RaftNode.commitMiddle]
  dsimp only
  induction (n.stateMachine.apply n.matchIndex.middle).2 with
  | nil => rfl
  | cons done run ih =>
    rw [List.map_cons, List.flatten_cons, replies_append, ih, List.filter_cons]
    by_cases hlive : done.1.sessionId ∈ live <;> simp [RaftNode.taskEvents, replies, hlive]

omit [PeerProtobuf] in
/-- The tasks that a response hands over and those it leaves have been in the queue. -/
theorem RaftNode.Transition.replies_sublist {sender : MemberId} {body : Body} {live : List ℕ}
    (h : Transition cfg n (.receive sender body live) n' events) (hreply : body.isReply) :
    ((replies events).map Prod.fst ++ n'.stateMachine.tasks).Sublist n.stateMachine.tasks := by
  cases h with
  | idle hevents =>
    obtain rfl | ⟨_,_,_,rfl⟩ := hevents
    · exact List.Sublist.refl _
    · exact List.Sublist.refl _
  | voteStale _ | voteDenied _ _ | voteGranted _ _ _ => cases hreply
  | appendStale _ | heartbeatReceived _ _ _ | appendBeyond _ _ _ => cases hreply
  | appendFailed _ _ _ _ | appended _ _ _ _ _ => cases hreply
  | lowered _ _ | voteCounted _ _ _ _ | elected _ _ _ _ => exact List.Sublist.refl _
  | appendRejected _ _ _ | appendKnown _ _ _ _ => exact List.Sublist.refl _
  | @committed _ live response _ _ _ _ =>
    rw [replies_commitMiddle]
    have hsub := (List.filter_sublist (p := fun done => decide (done.1.sessionId ∈ live))
      (l := ((n.told response).stateMachine.apply
        (n.told response).matchIndex.middle).2)).map Prod.fst
    rw [StateMachine.apply_executed] at hsub
    refine (hsub.append_right _).trans ?_
    change List.Sublist (_ ++ StateMachine.tasks (StateMachine.apply _ _).1) _
    rw [StateMachine.apply_tasks, List.takeWhile_append_dropWhile]
    exact List.Sublist.refl _

end HandlerSteps
end Handlers

section Due

/-- The executed task that a call of the function replies to. -/
def Invoke.origin : Invoke → Option ApplyTask
  | .handler _ => none
  | .applied task _ => some task

def replyTo (task : SessionTask) : Reply := ⟨task.requestId,task.invoke.origin⟩

/-- The reply to a task, once it is executed. -/
def ApplyTask.reply (task : ApplyTask) : Reply := ⟨UInt64.ofNat task.requestId,some task⟩

/-- What the round of the writer may still write. -/
def Writer.due : Writer → List Reply
  | .invoking task => [replyTo task]
  | .responding frame origin => [⟨frame.1.requestId,origin⟩]
  | _ => []

/-- The replies that have been written on a session or may be after the round of its writer. -/
def Session.settled (t : Session) : Multiset Reply := ↑t.written + ↑(t.queue.map replyTo)

/-- The replies that have been written on a session or may be, by what it holds. -/
def Session.due (t : Session) : Multiset Reply := ↑t.writer.due + t.settled

/-- The tasks whose replies have not reached their session. -/
def Process.waiting (p : Process) : List ApplyTask :=
  p.handing.toList.map Prod.fst ++ (p.applying.map Prod.fst ++ p.node.stateMachine.tasks)

/-- The replies to a session that have not reached it. -/
def repliesTo (s : ℕ) (tasks : List ApplyTask) : Multiset Reply :=
  ↑((tasks.filter fun task => task.sessionId = s).map ApplyTask.reply)

/-- The replies that have been written on a session or may be, wherever their tasks are. -/
def Process.due (p : Process) (s : ℕ) : Multiset Reply :=
  (p.session s).due + repliesTo s p.waiting

theorem coe_append_singleton {α : Type} (l : List α) (a : α) :
    (↑(l ++ [a]) : Multiset α) = a ::ₘ ↑l :=
  Multiset.coe_eq_coe.mpr (List.perm_append_singleton a l)

theorem repliesTo_append (s : ℕ) (tasks tasks' : List ApplyTask) :
    repliesTo s (tasks ++ tasks') = repliesTo s tasks + repliesTo s tasks' := by
  simp [repliesTo]

theorem repliesTo_le {tasks tasks' : List ApplyTask} (h : tasks.Sublist tasks') (s : ℕ) :
    repliesTo s tasks ≤ repliesTo s tasks' :=
  Multiset.coe_le.mpr ((h.filter _).map _).subperm

theorem repliesTo_self (task : ApplyTask) : repliesTo task.sessionId [task] = {task.reply} := by
  simp [repliesTo]

theorem repliesTo_of_ne {task : ApplyTask} {s : ℕ} (h : s ≠ task.sessionId) :
    repliesTo s [task] = 0 := by
  simp [repliesTo, h.symm]

/-- A task from the wire is a request for a handler. -/
theorem replyTo_invokeTask {frame : Rpc.RequestFrame} {task : SessionTask}
    (h : Rpc.invokeTask invokes frame = some task) :
    replyTo task = ⟨frame.1.requestId,none⟩ := by
  simp only [invokes, Rpc.InvokeMap.invokeTask_registerInvoke] at h
  split_ifs at h <;> cases h <;> rfl

/-- What a step of the reader or the writer does to what is due. -/
theorem Session.step_due {t t' : Session} {action : Action} (h : t.step action = some t') :
    (t'.due ≤ t.due ∧ t'.read = t.read) ∨
      ∃ r, t'.due ≤ ⟨r,none⟩ ::ₘ t.due ∧ t'.read = t.read ++ [r] := by
  cases action with
  | read frame =>
    rw [step] at h
    split_ifs at h
    cases h
    refine Or.inr ⟨frame.1.requestId,?_,rfl⟩
    cases htask : Rpc.invokeTask invokes frame with
    | none =>
      rw [Option.toList_none, List.append_nil]
      exact Multiset.le_cons_self _ _
    | some task =>
      refine le_of_eq ?_
      simp only [due, settled, Option.toList_some, List.map_append, ← Multiset.coe_add,
        List.map_singleton, replyTo_invokeTask htask, Multiset.coe_singleton,
        ← Multiset.singleton_add]
      abel
  | readFailed =>
    rw [step] at h
    split_ifs at h
    cases h
    exact Or.inl ⟨le_rfl,rfl⟩
  | readerClosed =>
    rw [step] at h
    split_ifs at h
    cases h
    exact Or.inl ⟨le_rfl,rfl⟩
  | pop =>
    rw [step] at h
    split at h
    · rename_i hwriter hqueue
      cases h
      exact Or.inl ⟨by simp [due, settled, hwriter, Writer.due],rfl⟩
    · rename_i task queue hwriter hqueue
      cases h
      refine Or.inl ⟨?_,rfl⟩
      simpa [due, settled, hwriter, hqueue, Writer.due] using List.perm_middle.symm.subperm
    · rename_i hwriter
      split_ifs at h
      · cases h
        exact Or.inl ⟨by simp [due, settled, hwriter, Writer.due],rfl⟩
      · split at h
        · cases h
        · rename_i task queue hqueue
          cases h
          refine Or.inl ⟨?_,rfl⟩
          simpa [due, settled, hwriter, hqueue, Writer.due] using List.perm_middle.symm.subperm
    · cases h
  | invoke io => cases h
  | written ok =>
    rw [step] at h
    split at h
    · rename_i frame origin hwriter
      split_ifs at h
      · cases h
        refine Or.inl ⟨?_,rfl⟩
        simpa [due, settled, hwriter, Writer.due] using List.perm_middle.subperm
      · cases h
        refine Or.inl ⟨?_,rfl⟩
        exact Multiset.add_le_add_right (Multiset.zero_le _)
    · cases h
  | writerClosed =>
    rw [step] at h
    split_ifs at h with hwriter
    cases h
    exact Or.inl ⟨by simp [due, settled, hwriter, Writer.due],rfl⟩

theorem Rpc.respond_requestId {requestId : UInt64} {result : Result Bytes}
    {frame : Rpc.ResponseFrame} (h : Rpc.respond requestId result = some frame) :
    frame.1.requestId = requestId := by
  cases result with
  | error e => cases h
  | ok respPayload =>
    rw [Rpc.respond] at h
    split_ifs at h
    cases h
    rfl

/-- The end of a round drops the reply or goes on to write it. -/
theorem Session.finish_due (t : Session) {task : SessionTask} (hwriter : t.writer = .invoking task)
    (result : Result Bytes) :
    (t.finish task.requestId result task.invoke.origin).due ≤ t.due := by
  unfold finish
  split
  · exact Multiset.add_le_add_right (Multiset.zero_le _)
  · rename_i frame hframe
    refine le_of_eq ?_
    rw [due, due, hwriter, Writer.due, Writer.due, replyTo, Rpc.respond_requestId hframe]
    rfl

/-- The ids of the replies that answer a request at once. -/
def directIds (replies : Multiset Reply) : Multiset UInt64 :=
  (replies.filter fun reply => reply.origin = none).map Reply.requestId

/-- The executed tasks that the others answer. -/
def answeredTasks (replies : Multiset Reply) : Multiset ApplyTask :=
  replies.filterMap Reply.origin

/-- The ids of the requests of a session that were deferred. -/
def deferredIds (s : ℕ) (deferred : List Deferral) : Multiset UInt64 :=
  ↑((deferred.filter fun d => d.session = s).map Deferral.requestId)

section Ids
variable {m m' : Multiset Reply} {r : UInt64} {task : ApplyTask}

theorem directIds_mono (h : m ≤ m') : directIds m ≤ directIds m' :=
  Multiset.map_le_map (Multiset.filter_le_filter _ h)

theorem directIds_cons_none : directIds (⟨r,none⟩ ::ₘ m) = r ::ₘ directIds m := by
  simp [directIds]

theorem directIds_cons_some : directIds (⟨r,some task⟩ ::ₘ m) = directIds m := by
  simp [directIds]

theorem answeredTasks_mono (h : m ≤ m') : answeredTasks m ≤ answeredTasks m' :=
  Multiset.filterMap_le_filterMap _ h

theorem answeredTasks_cons_none : answeredTasks (⟨r,none⟩ ::ₘ m) = answeredTasks m :=
  Multiset.filterMap_cons_none _ _ rfl

theorem answeredTasks_cons_some :
    answeredTasks (⟨r,some task⟩ ::ₘ m) = task ::ₘ answeredTasks m :=
  Multiset.filterMap_cons_some Reply.origin _ _ rfl

variable {s : ℕ} {deferred : List Deferral} {d : Deferral}

theorem deferredIds_append_self :
    deferredIds d.session (deferred ++ [d]) = d.requestId ::ₘ deferredIds d.session deferred := by
  simp [deferredIds]

theorem deferredIds_append_of_ne (h : s ≠ d.session) :
    deferredIds s (deferred ++ [d]) = deferredIds s deferred := by
  simp [deferredIds, h.symm]

end Ids
end Due

namespace Process

/-- What a step does to the replies that are due: a request that is read adds one, a request that
is deferred gives its own to the task in the queue. -/
inductive DueChange (p p' : Process) : Prop
  | quiet (due : ∀ x, p'.due x ≤ p.due x)
      (read : ∀ x, (p'.session x).read = (p.session x).read) (deferred : p'.deferred = p.deferred)
  | reads {s r} (due : p'.due s ≤ ⟨r,none⟩ ::ₘ p.due s) (others : ∀ x ≠ s, p'.due x ≤ p.due x)
      (read : (p'.session s).read = (p.session s).read ++ [r])
      (othersRead : ∀ x ≠ s, (p'.session x).read = (p.session x).read)
      (deferred : p'.deferred = p.deferred)
  | defers {s r task rest} (before : p.due s = ⟨r,none⟩ ::ₘ rest)
      (after : p'.due s = ⟨r,some task⟩ ::ₘ rest) (others : ∀ x ≠ s, p'.due x ≤ p.due x)
      (read : ∀ x, (p'.session x).read = (p.session x).read)
      (own : task.sessionId = s ∧ UInt64.ofNat task.requestId = r) (hopen : s < p.sessionId)
      (deferred : p'.deferred = p.deferred ++ [⟨s,r,task,p.sessionId⟩])

section Steps
variable {p p' : Process}

/-- Replies are dropped on their way to the sessions, or stay where they are. -/
theorem DueChange.of_waiting (session : p'.session = p.session)
    (hwaiting : p'.waiting.Sublist p.waiting) (deferred : p'.deferred = p.deferred) :
    DueChange p p' := by
  refine .quiet (fun x => ?_) (fun x => by rw [session]) deferred
  rw [due, due, session]
  exact Multiset.add_le_add_left (repliesTo_le hwaiting x)

section OneSession
variable {s : ℕ} {t : Session} (session : p'.session = Function.update p.session s t)
include session

theorem due_self : p'.due s = t.due + repliesTo s p'.waiting := by
  rw [due, session, Function.update_self]

theorem due_of_ne {x : ℕ} (hx : x ≠ s)
    (hwaiting : repliesTo x p'.waiting = repliesTo x p.waiting) : p'.due x = p.due x := by
  rw [due, due, session, Function.update_of_ne hx, hwaiting]

theorem read_of_ne {x : ℕ} (hx : x ≠ s) : (p'.session x).read = (p.session x).read := by
  rw [session, Function.update_of_ne hx]

theorem read_of_same (read : t.read = (p.session s).read) (x : ℕ) :
    (p'.session x).read = (p.session x).read := by
  by_cases hx : x = s
  · rw [hx, session, Function.update_self, read]
  · exact read_of_ne session hx

/-- What one session has changes, and what waits for it. -/
theorem DueChange.of_session
    (hwaiting : ∀ x ≠ s, repliesTo x p'.waiting = repliesTo x p.waiting)
    (due : t.due + repliesTo s p'.waiting ≤ p.due s) (read : t.read = (p.session s).read)
    (deferred : p'.deferred = p.deferred) : DueChange p p' := by
  refine .quiet (fun x => ?_) (read_of_same session read) deferred
  by_cases hx : x = s
  · rw [hx, due_self session]
    exact due
  · exact (due_of_ne session hx (hwaiting x hx)).le

/-- One session takes a step. -/
theorem DueChange.of_step {action : Action} (h : (p.session s).step action = some t)
    (hwaiting : p'.waiting = p.waiting) (deferred : p'.deferred = p.deferred) :
    DueChange p p' := by
  obtain ⟨hle,hread⟩ | ⟨r,hle,hread⟩ := Session.step_due h
  · refine .of_session session (fun x _ => by rw [hwaiting]) ?_ hread deferred
    rw [hwaiting]
    exact Multiset.add_le_add_right hle
  · refine .reads (s := s) (r := r) ?_ (fun x hx => (due_of_ne session hx (by rw [hwaiting])).le) ?_
      (fun x hx => read_of_ne session hx) deferred
    · rw [due_self session, hwaiting, due, ← Multiset.cons_add]
      exact Multiset.add_le_add_right hle
    · rw [session, Function.update_self]
      exact hread

end OneSession

/-- A reply reaches its session. -/
theorem DueChange.of_push {done : ApplyTask × InvokeTask} (hhanding : p.handing = some done)
    {task : SessionTask} (htask : replyTo task = done.1.reply)
    (session : p'.session = Function.update p.session done.1.sessionId
      { p.session done.1.sessionId with queue := (p.session done.1.sessionId).queue ++ [task] })
    (hwaiting : p'.waiting = p.applying.map Prod.fst ++ p.node.stateMachine.tasks)
    (deferred : p'.deferred = p.deferred) : DueChange p p' := by
  have hbefore : p.waiting = [done.1] ++ p'.waiting := by
    rw [hwaiting, waiting, hhanding]
    rfl
  refine .of_session session (fun x hx => ?_) (le_of_eq ?_) rfl deferred
  · rw [hbefore, repliesTo_append, repliesTo_of_ne hx, zero_add]
  · rw [due, hbefore, repliesTo_append, repliesTo_self, Session.due, Session.due,
      Session.settled, Session.settled, List.map_append, ← Multiset.coe_add, List.map_singleton,
      htask, Multiset.coe_singleton]
    abel

variable [Protobuf] [PeerProtobuf] {cfg : RaftConfig}

/-- A round of the writer whose handler queues a task, after which it writes nothing. -/
theorem DueChange.of_handler {s : ℕ} {task : SessionTask} {handler : Handler} {io : DiskOutcome}
    {n : RaftNode} {queued : List ApplyTask} {result : Result Bytes}
    (hwriter : (p.session s).writer = .invoking task) (hinvoke : task.invoke = .handler handler)
    (hrun : handler.run cfg p.node io task.reqPayload s task.requestId.toNat =
      some (n,queued,result)) (hopen : s < p.sessionId)
    (session : p'.session =
      Function.update p.session s ((p.session s).finish task.requestId result none))
    (node : p'.node = n) (handing : p'.handing = p.handing) (applying : p'.applying = p.applying)
    (deferred : p'.deferred =
      p.deferred ++ queued.map fun queued => ⟨s,task.requestId,queued,p.sessionId⟩) :
    DueChange p p' := by
  have hread : ((p.session s).finish task.requestId result none).read = (p.session s).read := rfl
  obtain ⟨rfl,htasks⟩ | ⟨later,rfl,htasks,hsession,hrequest,rfl⟩ := Handler.run_queues hrun
  · have hwaiting : p'.waiting = p.waiting := by
      rw [waiting, waiting, node, handing, applying, htasks]
    refine .of_session session (fun x _ => by rw [hwaiting]) ?_ hread (by simpa using deferred)
    have hfinish := Session.finish_due _ hwriter result
    rw [hinvoke] at hfinish
    rw [hwaiting]
    exact Multiset.add_le_add_right hfinish
  · have hwaiting : p'.waiting = p.waiting ++ [later] := by
      rw [waiting, waiting, node, handing, applying, htasks]
      simp
    have hself : UInt64.ofNat later.requestId = task.requestId := by
      rw [hrequest, UInt64.ofNat_toNat]
    have hreply : replyTo task = ⟨task.requestId,none⟩ := by
      rw [replyTo, hinvoke]
      rfl
    have hlater : later.reply = ⟨task.requestId,some later⟩ := by rw [ApplyTask.reply, hself]
    have hwritten : ((p.session s).finish task.requestId (.ok []) none).due =
        (p.session s).settled := zero_add _
    subst hsession
    have hbefore : p.due later.sessionId = ⟨task.requestId,none⟩ ::ₘ
        ((p.session later.sessionId).settled + repliesTo later.sessionId p.waiting) := by
      rw [due, Session.due, hwriter, Writer.due, hreply, Multiset.coe_singleton,
        ← Multiset.singleton_add, add_assoc]
    have hafter : p'.due later.sessionId = ⟨task.requestId,some later⟩ ::ₘ
        ((p.session later.sessionId).settled + repliesTo later.sessionId p.waiting) := by
      rw [due_self session, hwaiting, hwritten, repliesTo_append, repliesTo_self, hlater,
        ← Multiset.singleton_add]
      abel
    refine .defers hbefore hafter (fun x hx => (due_of_ne session hx ?_).le)
      (read_of_same session hread) ⟨rfl,hself⟩ hopen deferred
    rw [hwaiting, repliesTo_append, repliesTo_of_ne hx, add_zero]

/-- A round of the writer. -/
theorem invoke_due {s : ℕ} {io : DiskOutcome} (hopen : s < p.sessionId)
    (h : p.invoke cfg s io = some p') : DueChange p p' := by
  rw [invoke] at h
  split at h
  · rename_i task hwriter
    split at h
    · rename_i origin response hinvoke
      obtain ⟨response,-,h⟩ := Option.bind_eq_some_iff.mp h
      obtain rfl := Option.some.inj h
      refine .of_session rfl (fun _ _ => rfl) ?_ rfl rfl
      have hfinish := Session.finish_due _ hwriter (.ok (PeerProtobuf.kvResponse response))
      rw [hinvoke] at hfinish
      exact Multiset.add_le_add_right hfinish
    · rename_i handler hinvoke
      split_ifs at h
      obtain ⟨⟨n,queued,result⟩,hrun,h⟩ := Option.bind_eq_some_iff.mp h
      obtain rfl := Option.some.inj h
      exact .of_handler hwriter hinvoke hrun hopen rfl rfl rfl rfl rfl
  · cases h

/-- Every step is one of the three. -/
theorem step_due {l : Label} (h : p.step cfg l = some p') : DueChange p p' := by
  cases l with
  | accept =>
    cases h
    exact .of_waiting rfl (List.Sublist.refl _) rfl
  | session s action =>
    unfold step at h
    dsimp only at h
    split at h
    · rename_i hopen
      split at h
      · exact invoke_due hopen h
      · obtain ⟨t,ht,h⟩ := Option.bind_eq_some_iff.mp h
        obtain rfl := Option.some.inj h
        split_ifs
        · exact .of_step rfl ht rfl rfl
        · exact .of_step rfl ht rfl rfl
    · cases h
  | electionTimeout =>
    rw [step] at h
    split_ifs at h
    cases h
    have htasks := (@RaftNode.startElectionTimeout_transition _ cfg p.node).tasks_eq
      (by simp) (by simp)
    exact .of_waiting rfl (by rw [waiting, waiting, htasks]) rfl
  | heartbeatTimeout =>
    rw [step] at h
    split_ifs at h
    cases h
    have htasks := (@RaftNode.startHeartbeatTimeout_transition _ cfg p.node).tasks_eq
      (by simp) (by simp)
    exact .of_waiting rfl (by rw [waiting, waiting, htasks]) rfl
  | callback io sender body =>
    rw [step] at h
    split_ifs at h with hfree
    obtain ⟨⟨n,events⟩,hreceive,h⟩ := Option.bind_eq_some_iff.mp h
    obtain rfl := Option.some.inj h
    obtain ⟨hidle,hreply⟩ := hfree
    have happlying : p.applying = [] ∧ p.handing = none := by simpa [mutexFree] using hidle
    have htransition : p.node.Transition cfg (.receive sender body (List.range p.sessionId)) n
        events := RaftNode.step_transition hreceive
    refine .of_waiting rfl ?_ rfl
    rw [waiting, waiting, happlying.1, happlying.2]
    exact htransition.replies_sublist hreply
  | sessionAt =>
    rw [step] at h
    split at h
    · rename_i done applying hhanding happlying
      cases h
      refine .of_waiting rfl ?_ rfl
      rw [waiting, waiting, hhanding, happlying]
      dsimp only
      split_ifs
      · exact List.Sublist.refl _
      · exact List.sublist_cons_self _ _
    · cases h
  | push =>
    rw [step] at h
    split at h
    · rename_i task invokeTask hhanding
      cases h
      exact .of_push hhanding rfl rfl rfl rfl
    · cases h
  | shutdown =>
    cases h
    exact .of_waiting rfl (List.Sublist.refl _) rfl

end Steps

/-- Where the replies come from that are due on session `s`: each that answers a task is the one
reply of a deferral, and it is due there under its own id; all others answer requests that have
been read and have not been deferred. -/
structure AccountedOn (s : ℕ) (due : Multiset Reply) (deferred : List Deferral)
    (read : List UInt64) : Prop where
  own : ∀ reply ∈ due, ∀ task ∈ reply.origin,
    task.sessionId = s ∧ UInt64.ofNat task.requestId = reply.requestId
  once : answeredTasks due ≤ ↑(deferred.map Deferral.task)
  counted : due.map Reply.requestId ≤ ↑read
  undeferred : directIds due + deferredIds s deferred ≤ ↑read

namespace AccountedOn
variable {s : ℕ} {due due' : Multiset Reply} {deferred : List Deferral} {read : List UInt64}
  {r : UInt64}

theorem nil (s : ℕ) : AccountedOn s 0 [] [] where
  own reply hreply := absurd hreply (Multiset.notMem_zero reply)
  once := Multiset.zero_le _
  counted := Multiset.zero_le _
  undeferred := Multiset.zero_le _

/-- Fewer replies are due. -/
theorem mono (h : AccountedOn s due deferred read) (hle : due' ≤ due) :
    AccountedOn s due' deferred read where
  own reply hreply := h.own reply (Multiset.mem_of_le hle hreply)
  once := (answeredTasks_mono hle).trans h.once
  counted := (Multiset.map_le_map hle).trans h.counted
  undeferred := le_trans (Multiset.add_le_add_right (directIds_mono hle)) h.undeferred

/-- A request is read. -/
theorem reads (h : AccountedOn s due deferred read) :
    AccountedOn s (⟨r,none⟩ ::ₘ due) deferred (read ++ [r]) where
  own reply hreply task htask := by
    obtain rfl | hreply := Multiset.mem_cons.mp hreply
    · exact absurd htask (Option.not_mem_none task)
    · exact h.own reply hreply task htask
  once := by
    rw [answeredTasks_cons_none]
    exact h.once
  counted := by
    rw [coe_append_singleton, Multiset.map_cons]
    exact Multiset.cons_le_cons r h.counted
  undeferred := by
    rw [coe_append_singleton, directIds_cons_none, Multiset.cons_add]
    exact Multiset.cons_le_cons r h.undeferred

theorem map_task_append (deferred : List Deferral) (d : Deferral) :
    (↑((deferred ++ [d]).map Deferral.task) : Multiset ApplyTask) =
      d.task ::ₘ ↑(deferred.map Deferral.task) := by
  rw [List.map_append, List.map_singleton, coe_append_singleton]

/-- A request of the session is deferred. -/
theorem defers {d : Deferral}
    (h : AccountedOn d.session (⟨d.requestId,none⟩ ::ₘ due) deferred read)
    (hsession : d.task.sessionId = d.session)
    (hid : UInt64.ofNat d.task.requestId = d.requestId) :
    AccountedOn d.session (⟨d.requestId,some d.task⟩ ::ₘ due) (deferred ++ [d]) read where
  own reply hreply task htask := by
    obtain rfl | hreply := Multiset.mem_cons.mp hreply
    · cases htask
      exact ⟨hsession,hid⟩
    · exact h.own reply (Multiset.mem_cons_of_mem hreply) task htask
  once := by
    have honce := h.once
    rw [answeredTasks_cons_none] at honce
    rw [answeredTasks_cons_some, map_task_append]
    exact Multiset.cons_le_cons d.task honce
  counted := by
    have hcounted := h.counted
    rw [Multiset.map_cons] at hcounted ⊢
    exact hcounted
  undeferred := by
    have hundeferred := h.undeferred
    rw [directIds_cons_none, Multiset.cons_add] at hundeferred
    rw [directIds_cons_some, deferredIds_append_self, Multiset.add_cons]
    exact hundeferred

/-- A request of another session is deferred. -/
theorem defers_of_ne (h : AccountedOn s due deferred read) {d : Deferral} (hd : s ≠ d.session) :
    AccountedOn s due (deferred ++ [d]) read where
  own := h.own
  once := by
    rw [map_task_append]
    exact h.once.trans (Multiset.le_cons_self _ _)
  counted := h.counted
  undeferred := by
    rw [deferredIds_append_of_ne hd]
    exact h.undeferred

end AccountedOn

/-- All replies that are due in a run, and the deferrals. -/
structure Accounted (p : Process) : Prop where
  sessions : ∀ x, AccountedOn x (p.due x) p.deferred (p.session x).read
  deferrals : ∀ d ∈ p.deferred, d.task.sessionId = d.session ∧
    UInt64.ofNat d.task.requestId = d.requestId ∧ d.session < d.sessions

namespace Accounted
variable {p p' : Process}

theorem init {n : RaftNode} (htasks : n.stateMachine.tasks = []) : Accounted (.init n) := by
  have hdue : ∀ x, (Process.init n).due x = 0 := by
    intro x
    simp [due, waiting, Process.init, Session.due, Session.settled, Session.new, Writer.due,
      repliesTo, htasks]
  refine ⟨fun x => ?_,fun d hd => absurd hd List.not_mem_nil⟩
  rw [hdue]
  exact .nil x

theorem step (h : p.Accounted) (hchange : DueChange p p') : p'.Accounted := by
  cases hchange with
  | quiet due read deferred =>
    refine ⟨fun x => ?_,deferred ▸ h.deferrals⟩
    rw [read, deferred]
    exact (h.sessions x).mono (due x)
  | @reads s r due others read othersRead deferred =>
    refine ⟨fun x => ?_,deferred ▸ h.deferrals⟩
    rw [deferred]
    by_cases hx : x = s
    · rw [hx, read]
      exact (h.sessions s).reads.mono due
    · rw [othersRead x hx]
      exact (h.sessions x).mono (others x hx)
  | @defers s r task rest before after others read own hopen deferred =>
    refine ⟨fun x => ?_,fun d hd => ?_⟩
    · rw [read, deferred]
      by_cases hx : x = s
      · have hself := h.sessions s
        rw [before] at hself
        rw [hx, after]
        exact AccountedOn.defers (d := ⟨s,r,task,p.sessionId⟩) hself own.1 own.2
      · exact ((h.sessions x).mono (others x hx)).defers_of_ne hx
    · rw [deferred] at hd
      obtain hd | hd := List.mem_append.mp hd
      · exact h.deferrals d hd
      · obtain rfl := List.mem_singleton.mp hd
        exact ⟨own.1,own.2,hopen⟩

end Accounted

/-- What clients see of a process: under each id of a session no more responses than requests,
and none at once to a deferred request; later it gets one at most, on its session and under its
id, and that session is older than all that are opened after its handler returned. -/
structure RepliesToClients (p : Process) : Prop where
  answered : ∀ s r, ((p.session s).written.map Reply.requestId).count r ≤
    (p.session s).read.count r
  deferred : ∀ s r, (((p.session s).written.filter fun reply => reply.origin = none).map
      Reply.requestId).count r +
    ((p.deferred.filter fun d => d.session = s).map Deferral.requestId).count r ≤
      (p.session s).read.count r
  once : ∀ s task, ((p.session s).written.filterMap Reply.origin).count task ≤
    (p.deferred.map Deferral.task).count task
  own : ∀ d ∈ p.deferred, d.session < d.sessions ∧
    ∀ s, ∀ reply ∈ (p.session s).written, reply.origin = some d.task →
      s = d.session ∧ reply.requestId = d.requestId

theorem written_le_due (p : Process) (s : ℕ) :
    (↑(p.session s).written : Multiset Reply) ≤ p.due s :=
  le_trans (Multiset.le_add_right _ _)
    (le_trans (Multiset.le_add_left _ _) (Multiset.le_add_right _ _))

theorem Accounted.repliesToClients {p : Process} (h : p.Accounted) : p.RepliesToClients where
  answered s r := by
    have hle := (Multiset.map_le_map (p.written_le_due s)).trans (h.sessions s).counted
    exact (Multiset.coe_le.mp hle).count_le r
  deferred s r := by
    have hle := le_trans (Multiset.add_le_add_right (directIds_mono (p.written_le_due s)))
      (h.sessions s).undeferred
    simpa [directIds, deferredIds] using Multiset.count_le_of_le r hle
  once s task := by
    have hle := (answeredTasks_mono (p.written_le_due s)).trans (h.sessions s).once
    exact (Multiset.coe_le.mp hle).count_le task
  own d hd := by
    obtain ⟨hsession,hid,hopen⟩ := h.deferrals d hd
    refine ⟨hopen,fun s reply hreply horigin => ?_⟩
    have hown :=
      (h.sessions s).own reply (Multiset.mem_of_le (p.written_le_due s) hreply) d.task horigin
    exact ⟨hown.1.symm.trans hsession,hown.2.symm.trans hid⟩

section Runs
variable [Protobuf] [PeerProtobuf] {cfg : RaftConfig} {raftStore kvStore : Storage}
  {accepted : Bool} {n : RaftNode} {labels : List Label} {p : Process}

omit [PeerProtobuf] in
/-- A node that has been created has no tasks. -/
theorem create_tasks (h : RaftNode.create raftStore kvStore accepted = .ok n) :
    n.stateMachine.tasks = [] := by
  unfold RaftNode.create at h
  split at h
  · cases h
  · split at h <;> cases h
    rfl

/-- In every run of a process each request gets one reply at most, and its own client gets it. -/
theorem replies_to_clients (hcreate : RaftNode.create raftStore kvStore accepted = .ok n)
    (h : Run cfg n labels p) : p.RepliesToClients := by
  have haccounted : p.Accounted := Generic.Run.invariant (Accounted.init (create_tasks hcreate))
    (fun _ hp _ hn => hp.step (step_due hn)) h
  exact haccounted.repliesToClients

end Runs

section Trio
attribute [local instance] Proto3.protobuf Proto3.peerProtobuf

/-- A member of three wins its election; session 0 sends it a put, another member has the entry,
and the reply goes to session 0. Session 1 sends a request that cannot be read. -/
def servedPut : List Label :=
  [.electionTimeout,.callback .ok 2 (.requestVoteReply ⟨⟨0,2,1⟩,true⟩),.accept,
    .session 0 (.read (⟨7,.kKv,.kKvPut,6⟩,Wire.serialize (⟨[1],[2],∅⟩ : Kv.PutRequest))),
    .session 0 .pop,.session 0 (.invoke .ok),.accept,.session 1 (.read (⟨7,.kKv,.kKvPut,1⟩,[0])),
    .session 1 .pop,.session 1 (.invoke .ok),
    .callback .ok 2 (.appendEntriesReply .appendEntries ⟨⟨0,2,1⟩,true,1,1⟩),.sessionAt,.push,
    .session 0 .pop,.session 0 (.invoke .ok),.session 0 (.written true)]

theorem replies_to_clients_trio : ∃ p,
    Run (Cluster.trio.cfg 1) (.fresh Storage.empty) servedPut p ∧
      ((p.session 0).written.map Reply.requestId = [7] ∧ (p.session 1).written = [] ∧
        p.deferred.length = 1) ∧ p.RepliesToClients := by
  obtain ⟨p,hp,hfacts⟩ : ∃ p, Run (Cluster.trio.cfg 1) (.fresh Storage.empty) servedPut p ∧
      ((p.session 0).written.map Reply.requestId = [7] ∧ (p.session 1).written = [] ∧
        p.deferred.length = 1) :=
    Generic.Run.of_check (Generic.accepted_of_forall (fun _ _ => trivial) _ _) (by decide)
  exact ⟨p,hp,hfacts,replies_to_clients (RaftNode.create_empty Storage.empty) hp⟩

end Trio
end Process
end Foskv.Raft
