import Foskv.Raft.Sessions
import Foskv.Raft.Validity

/-! What a session carries between a request and its reply: the tasks for its writer, the tasks
that wait for a commit, and the response being written. -/
namespace Foskv.Raft

namespace Session
variable {t t' : Session} {action : Action}

/-- A task comes into the queue from the wire, and to the writer from the queue. -/
theorem step_places (h : t.step action = some t') :
    (∀ x ∈ t'.queue, x ∈ t.queue ∨
      ∃ frame, action = .read frame ∧ Rpc.invokeTask invokes frame = some x) ∧
    (∀ x, t'.writer = .invoking x → t.writer = .invoking x ∨ x ∈ t.queue) ∧
    ∀ frame origin, t'.writer = .responding frame origin →
      t.writer = .responding frame origin := by
  cases action with
  | read frame =>
    rw [step] at h
    split_ifs at h
    cases h
    refine ⟨fun x hx => ?_,fun x hx => Or.inl hx,fun _ _ hf => hf⟩
    obtain hx | hx := List.mem_append.mp hx
    · exact Or.inl hx
    · exact Or.inr ⟨frame,rfl,Option.mem_toList.mp hx⟩
  | readFailed =>
    rw [step] at h
    split_ifs at h
    cases h
    exact ⟨fun x hx => Or.inl hx,fun x hx => Or.inl hx,fun _ _ hf => hf⟩
  | readerClosed =>
    rw [step] at h
    split_ifs at h
    cases h
    exact ⟨fun x hx => Or.inl hx,fun x hx => Or.inl hx,fun _ _ hf => hf⟩
  | pop =>
    rw [step] at h
    split at h
    · cases h
      exact ⟨fun x hx => Or.inl hx,by simp,by simp⟩
    · rename_i task queue hwriter hqueue
      cases h
      refine ⟨fun x hx => Or.inl (hqueue ▸ List.mem_cons_of_mem _ hx),fun x hx => ?_,by simp⟩
      cases hx
      exact Or.inr (hqueue ▸ List.mem_cons_self)
    · split_ifs at h
      · cases h
        exact ⟨fun x hx => Or.inl hx,by simp,by simp⟩
      · split at h
        · cases h
        · rename_i task queue hqueue
          cases h
          refine ⟨fun x hx => Or.inl (hqueue ▸ List.mem_cons_of_mem _ hx),fun x hx => ?_,by simp⟩
          cases hx
          exact Or.inr (hqueue ▸ List.mem_cons_self)
    · cases h
  | invoke io => cases h
  | written ok =>
    rw [step] at h
    split at h
    · split_ifs at h <;> cases h
      · exact ⟨fun x hx => Or.inl hx,by simp,by simp⟩
      · exact ⟨fun x hx => Or.inl hx,by simp,by simp⟩
    · cases h
  | writerClosed =>
    rw [step] at h
    split_ifs at h
    cases h
    exact ⟨fun x hx => Or.inl hx,by simp,by simp⟩

/-- The response that an action finishes to write. -/
def writtenBy (t : Session) : Action → List Rpc.ResponseFrame
  | .written true =>
    match t.writer with
    | .responding frame _ => [frame]
    | _ => []
  | _ => []

/-- Only the end of a write counts a reply as written. -/
theorem step_written (h : t.step action = some t') : t'.written.map Reply.requestId =
    t.written.map Reply.requestId ++
      (t.writtenBy action).map fun frame => frame.1.requestId := by
  cases action with
  | written ok =>
    rw [step] at h
    split at h
    · rename_i frame origin hwriter
      split_ifs at h with hok
      · cases h
        simp [hok, writtenBy, hwriter]
      · cases h
        simp [hok, writtenBy]
    · cases h
  | pop =>
    rw [step] at h
    split at h
    · cases h
      exact (List.append_nil _).symm
    · cases h
      exact (List.append_nil _).symm
    · split_ifs at h
      · cases h
        exact (List.append_nil _).symm
      · split at h <;> cases h
        exact (List.append_nil _).symm
    · cases h
  | invoke io => cases h
  | read frame =>
    rw [step] at h
    split_ifs at h
    cases h
    exact (List.append_nil _).symm
  | readFailed | readerClosed | writerClosed =>
    rw [step] at h
    split_ifs at h
    cases h
    exact (List.append_nil _).symm

/-- Only the reader counts a request as read. -/
theorem step_read (h : t.step action = some t') : t'.read = t.read ∨
    ∃ frame, action = .read frame ∧ t'.read = t.read ++ [frame.1.requestId] := by
  cases action with
  | read frame =>
    rw [step] at h
    split_ifs at h
    cases h
    exact Or.inr ⟨frame,rfl,rfl⟩
  | pop =>
    rw [step] at h
    split at h
    · cases h
      exact Or.inl rfl
    · cases h
      exact Or.inl rfl
    · split_ifs at h
      · cases h
        exact Or.inl rfl
      · split at h <;> cases h
        exact Or.inl rfl
    · cases h
  | invoke io => cases h
  | written ok =>
    rw [step] at h
    split at h
    · split_ifs at h <;> cases h
      · exact Or.inl rfl
      · exact Or.inl rfl
    · cases h
  | readFailed | readerClosed | writerClosed =>
    rw [step] at h
    split_ifs at h
    cases h
    exact Or.inl rfl

end Session

namespace Process
variable {p p' : Process} {s : ℕ} {P P' : SessionTask → Prop} {Q Q' : ApplyTask → Prop}
  {R R' : Rpc.ResponseFrame → Prop}

/-- What is known of all that a session has not written yet: the tasks for its writer, the tasks
whose reply goes to it, and the response its writer writes. -/
structure Carries (p : Process) (s : ℕ) (P : SessionTask → Prop) (Q : ApplyTask → Prop)
    (R : Rpc.ResponseFrame → Prop) : Prop where
  queue : ∀ t ∈ (p.session s).queue, P t
  invoking : ∀ t, (p.session s).writer = .invoking t → P t
  responding : ∀ frame origin, (p.session s).writer = .responding frame origin → R frame
  waiting : ∀ t ∈ p.waiting, t.sessionId = s → Q t

namespace Carries

theorem mono (h : p.Carries s P Q R) (hP : ∀ t, P t → P' t) (hQ : ∀ t, Q t → Q' t)
    (hR : ∀ frame, R frame → R' frame) : p.Carries s P' Q' R' where
  queue t ht := hP t (h.queue t ht)
  invoking t ht := hP t (h.invoking t ht)
  responding frame origin hf := hR frame (h.responding frame origin hf)
  waiting t ht hs := hQ t (h.waiting t ht hs)

/-- A session that has just been opened carries nothing. -/
theorem new (hsession : p.session s = .new) (hwaiting : repliesTo s p.waiting = 0) :
    p.Carries s P Q R where
  queue t ht := by
    rw [hsession] at ht
    cases ht
  invoking t ht := by
    rw [hsession] at ht
    cases ht
  responding frame origin hf := by
    rw [hsession] at hf
    cases hf
  waiting t ht hs := by
    have hmem : t.reply ∈ repliesTo s p.waiting :=
      List.mem_map_of_mem (List.mem_filter.mpr ⟨ht,by simpa using hs⟩)
    rw [hwaiting] at hmem
    exact absurd hmem (Multiset.notMem_zero _)

/-- The session is as before, and no reply to it has come up. -/
theorem of_session (h : p.Carries s P Q R) (session : p'.session s = p.session s)
    (hwaiting : ∀ t ∈ p'.waiting, t ∈ p.waiting ∨ t.sessionId ≠ s) : p'.Carries s P Q R where
  queue t ht := h.queue t (session ▸ ht)
  invoking t ht := h.invoking t (session ▸ ht)
  responding frame origin hf := h.responding frame origin (session ▸ hf)
  waiting t ht hs := by
    obtain ht | hne := hwaiting t ht
    · exact h.waiting t ht hs
    · exact absurd hs hne

/-- The session goes on. -/
theorem of_step {t : Session} {action : Action} (h : p.Carries s P Q R)
    (ht : (p.session s).step action = some t) (session : p'.session s = t)
    (hwaiting : p'.waiting = p.waiting)
    (hread : ∀ frame, action = .read frame → ∀ task, Rpc.invokeTask invokes frame = some task →
      P task) : p'.Carries s P Q R := by
  obtain ⟨hqueue,hinvoking,hresponding⟩ := Session.step_places ht
  constructor
  · intro task htask
    rw [session] at htask
    obtain hold | ⟨frame,haction,htask⟩ := hqueue task htask
    · exact h.queue task hold
    · exact hread frame haction task htask
  · intro task htask
    rw [session] at htask
    obtain hold | hold := hinvoking task htask
    · exact h.invoking task hold
    · exact h.queue task hold
  · intro frame origin hf
    rw [session] at hf
    exact h.responding frame origin (hresponding frame origin hf)
  · intro task htask hs
    exact h.waiting task (hwaiting ▸ htask) hs

/-- A round of the writer ends. -/
theorem of_finish {requestId : UInt64} {result : Result Bytes} {origin : Option ApplyTask}
    (h : p.Carries s P Q R)
    (session : p'.session s = (p.session s).finish requestId result origin)
    (hresult : ∀ frame, Rpc.respond requestId result = some frame → R frame)
    (hwaiting : ∀ t ∈ p'.waiting, t.sessionId = s → t ∈ p.waiting ∨ Q t) :
    p'.Carries s P Q R := by
  constructor
  · intro task htask
    rw [session] at htask
    exact h.queue task htask
  · intro task htask
    rw [session, Session.finish] at htask
    cases hframe : Rpc.respond requestId result <;> rw [hframe] at htask <;> cases htask
  · intro frame origin' hf
    rw [session, Session.finish] at hf
    cases hframe : Rpc.respond requestId result with
    | none =>
      rw [hframe] at hf
      cases hf
    | some frame' =>
      rw [hframe] at hf
      cases hf
      exact hresult frame hframe
  · intro task htask hs
    obtain hold | hnew := hwaiting task htask hs
    · exact h.waiting task hold hs
    · exact hnew

end Carries

section Answers
variable [Protobuf] [PeerProtobuf]

/-- The call of a registered function that a step makes, with its result. -/
def invocation (cfg : RaftConfig) (p : Process) : Label →
    Option (ℕ × SessionTask × Result Bytes)
  | .session s (.invoke io) =>
    match (p.session s).writer with
    | .invoking task =>
      match task.invoke with
      | .handler handler =>
        (handler.run cfg p.node io task.reqPayload s task.requestId.toNat).map
          fun r => (s,task,r.2.2)
      | .applied .. => none
    | _ => none
  | _ => none

/-- The replies of the tasks that a step has executed. -/
def executed (p' : Process) : Label → List (ApplyTask × InvokeTask)
  | .callback .. => p'.applying
  | _ => []

/-- What the steps that move one session leave alone. -/
structure SameRest (p p' : Process) : Prop where
  ids : p'.sessionId = p.sessionId
  waiting : p'.waiting = p.waiting
  handing : p'.handing = p.handing
  applying : p'.applying = p.applying

/-- What a step does to the sessions and to the replies on their way to them. -/
inductive Moves (cfg : RaftConfig) (p : Process) : Label → Process → Prop
  | quiet {l p'} (outside : ∀ x action, l ≠ .session x action)
      (session : p'.session = p.session) (ids : p.sessionId ≤ p'.sessionId)
      (waiting : p'.waiting.Sublist p.waiting)
      (handing : ∀ done ∈ p'.handing.toList ++ p'.applying,
        done ∈ p.handing.toList ++ p.applying ∨ done ∈ p'.executed l) : Moves cfg p l p'
  | acts {x action t p'} (hopen : x < p.sessionId) (hstep : (p.session x).step action = some t)
      (session : p'.session = Function.update p.session x t) (rest : p.SameRest p') :
      Moves cfg p (.session x action) p'
  | replies {x io task origin response p'} (hopen : x < p.sessionId)
      (hwriter : (p.session x).writer = .invoking task)
      (hinvoke : task.invoke = .applied origin (some response))
      (session : p'.session = Function.update p.session x ((p.session x).finish task.requestId
        (.ok (PeerProtobuf.kvResponse response)) (some origin))) (rest : p.SameRest p') :
      Moves cfg p (.session x (.invoke io)) p'
  | handles {x io task handler n queued result p'} (hopen : x < p.sessionId)
      (hwriter : (p.session x).writer = .invoking task)
      (hinvoke : task.invoke = .handler handler)
      (hrun : handler.run cfg p.node io task.reqPayload x task.requestId.toNat =
        some (n,queued,result))
      (session : p'.session = Function.update p.session x
        ((p.session x).finish task.requestId result none))
      (ids : p'.sessionId = p.sessionId)
      (waiting : ∀ t ∈ p'.waiting, t ∈ p.waiting ∨ t ∈ queued)
      (handing : p'.handing = p.handing) (applying : p'.applying = p.applying) :
      Moves cfg p (.session x (.invoke io)) p'
  | pushes {task invokeTask p'} (hhanding : p.handing = some (task,invokeTask))
      (session : p'.session = Function.update p.session task.sessionId
        { p.session task.sessionId with queue := (p.session task.sessionId).queue ++
          [⟨UInt64.ofNat task.requestId,[],.applied task invokeTask.response⟩] })
      (ids : p'.sessionId = p.sessionId) (waiting : ∀ t ∈ p'.waiting, t ∈ p.waiting)
      (handing : p'.handing = none) (applying : p'.applying = p.applying) : Moves cfg p .push p'

variable {cfg : RaftConfig} {l : Label}

theorem invoke_moves {x : ℕ} {io : DiskOutcome} (hopen : x < p.sessionId)
    (h : p.invoke cfg x io = some p') : p.Moves cfg (.session x (.invoke io)) p' := by
  rw [invoke] at h
  split at h
  · rename_i task hwriter
    split at h
    · rename_i origin response hinvoke
      obtain ⟨response,rfl,h⟩ := Option.bind_eq_some_iff.mp h
      obtain rfl := Option.some.inj h
      exact .replies hopen hwriter hinvoke rfl ⟨rfl,rfl,rfl,rfl⟩
    · rename_i handler hinvoke
      split_ifs at h
      obtain ⟨⟨n,queued,result⟩,hrun,h⟩ := Option.bind_eq_some_iff.mp h
      obtain rfl := Option.some.inj h
      refine .handles hopen hwriter hinvoke hrun rfl rfl (fun t ht => ?_) rfl rfl
      obtain ⟨-,htasks⟩ | ⟨later,rfl,htasks,-⟩ := Handler.run_queues hrun
      · rw [waiting, htasks] at ht
        exact Or.inl ht
      · rw [waiting, htasks] at ht
        simp only [waiting, List.mem_append] at ht ⊢
        tauto
  · cases h

theorem step_moves (h : p.step cfg l = some p') : p.Moves cfg l p' := by
  cases l with
  | accept =>
    cases h
    exact .quiet (by simp) rfl (Nat.le_succ _) (List.Sublist.refl _) fun _ hd => Or.inl hd
  | session x action =>
    unfold step at h
    dsimp only at h
    split at h
    · rename_i hopen
      split at h
      · exact invoke_moves hopen h
      · obtain ⟨t,ht,h⟩ := Option.bind_eq_some_iff.mp h
        obtain rfl := Option.some.inj h
        split_ifs
        · exact .acts hopen ht rfl ⟨rfl,rfl,rfl,rfl⟩
        · exact .acts hopen ht rfl ⟨rfl,rfl,rfl,rfl⟩
    · cases h
  | electionTimeout =>
    rw [step] at h
    split_ifs at h
    cases h
    have htasks := (@RaftNode.startElectionTimeout_transition _ cfg p.node).tasks_eq
      (by simp) (by simp)
    exact .quiet (by simp) rfl le_rfl (by rw [waiting, waiting, htasks]) fun _ hd => Or.inl hd
  | heartbeatTimeout =>
    rw [step] at h
    split_ifs at h
    cases h
    have htasks := (@RaftNode.startHeartbeatTimeout_transition _ cfg p.node).tasks_eq
      (by simp) (by simp)
    exact .quiet (by simp) rfl le_rfl (by rw [waiting, waiting, htasks]) fun _ hd => Or.inl hd
  | callback io sender body =>
    rw [step] at h
    split_ifs at h with hfree
    obtain ⟨⟨n,events⟩,hreceive,h⟩ := Option.bind_eq_some_iff.mp h
    obtain rfl := Option.some.inj h
    obtain ⟨hidle,hreply⟩ := hfree
    have happlying : p.applying = [] ∧ p.handing = none := by simpa [mutexFree] using hidle
    have htransition : p.node.Transition cfg (.receive sender body (List.range p.sessionId)) n
        events := RaftNode.step_transition hreceive
    refine .quiet (by simp) rfl le_rfl ?_ fun done hd => ?_
    · rw [waiting, waiting, happlying.1, happlying.2]
      exact htransition.replies_sublist hreply
    · obtain hd | hd := List.mem_append.mp hd
      · exact Or.inl (List.mem_append_left _ hd)
      · exact Or.inr hd
  | sessionAt =>
    rw [step] at h
    split at h
    · rename_i first applying hhanding happlying
      cases h
      refine .quiet (by simp) rfl le_rfl ?_ fun done hd => ?_
      · rw [waiting, waiting, hhanding, happlying]
        dsimp only
        split_ifs
        · exact List.Sublist.refl _
        · exact List.sublist_cons_self _ _
      · rw [hhanding, happlying]
        dsimp only at hd
        split_ifs at hd
        · exact Or.inl hd
        · exact Or.inl (List.mem_cons_of_mem _ hd)
    · cases h
  | push =>
    rw [step] at h
    split at h
    · rename_i task invokeTask hhanding
      cases h
      refine .pushes hhanding rfl rfl (fun t ht => ?_) rfl rfl
      rw [waiting, hhanding]
      exact List.mem_append_right _ ht
    · cases h
  | shutdown =>
    cases h
    exact .quiet (by simp) rfl le_rfl (List.Sublist.refl _) fun _ hd => Or.inl hd

/-- The request of a call was handled by queueing `task`, for the session and the id under which
it was read. -/
structure Deferred (invoked : List (ℕ × SessionTask × Result Bytes)) (s : ℕ) (call : Rpc.Call)
    (requestId : UInt64) (method : KvMethod) (task : ApplyTask) : Prop where
  asked : Rpc.invokeTask invokes (call.frame requestId) =
    some ⟨requestId,call.reqPayload,.handler (.kv method)⟩
  invoked : (s,⟨requestId,call.reqPayload,.handler (.kv method)⟩,.ok []) ∈ invoked
  request : method.command call.reqPayload = some task.request
  session : task.sessionId = s
  id : UInt64.ofNat task.requestId = requestId

/-- What the server has made of a call that it read under an id of session `s`: the result of the
function that the call names, or the reply of the command that the call stands for. -/
inductive Answers (invoked : List (ℕ × SessionTask × Result Bytes))
    (executed : List (ApplyTask × InvokeTask)) (s : ℕ) (call : Rpc.Call) (requestId : UInt64) :
    Bytes → Prop
  | direct {task respPayload}
      (hasked : Rpc.invokeTask invokes (call.frame requestId) = some task)
      (hinvoked : (s,task,.ok respPayload) ∈ invoked) :
      Answers invoked executed s call requestId respPayload
  | deferred {method task invokeTask response}
      (hdeferred : Deferred invoked s call requestId method task)
      (hexecuted : (task,invokeTask) ∈ executed)
      (hresponse : invokeTask.response = some response) :
      Answers invoked executed s call requestId (PeerProtobuf.kvResponse response)

variable {asked : UInt64 → Rpc.Call → Prop}
  {invoked invoked' : List (ℕ × SessionTask × Result Bytes)}
  {executed executed' : List (ApplyTask × InvokeTask)}

/-- Whatever call stands behind the id of a task, the task is its request or brings its reply. -/
def Serves (asked : UInt64 → Rpc.Call → Prop) (invoked : List (ℕ × SessionTask × Result Bytes))
    (executed : List (ApplyTask × InvokeTask)) (s : ℕ) (t : SessionTask) : Prop :=
  ∀ call, asked t.requestId call →
    match t.invoke with
    | .handler _ => Rpc.invokeTask invokes (call.frame t.requestId) = some t
    | .applied _ response => ∀ r ∈ response,
      Answers invoked executed s call t.requestId (PeerProtobuf.kvResponse r)

/-- The session carries requests and replies of the calls that stand behind their ids. -/
def Exchanges (p : Process) (s : ℕ) (asked : UInt64 → Rpc.Call → Prop)
    (invoked : List (ℕ × SessionTask × Result Bytes))
    (executed : List (ApplyTask × InvokeTask)) : Prop :=
  p.Carries s (Serves asked invoked executed s)
    (fun task => ∀ call, asked (UInt64.ofNat task.requestId) call →
      ∃ method, Deferred invoked s call (UInt64.ofNat task.requestId) method task)
    (fun frame => ∀ call, asked frame.1.requestId call →
      Answers invoked executed s call frame.1.requestId frame.2)

omit [PeerProtobuf] in
theorem Deferred.mono {call : Rpc.Call} {requestId : UInt64} {method : KvMethod}
    {task : ApplyTask} (h : Deferred invoked s call requestId method task)
    (hi : invoked ⊆ invoked') : Deferred invoked' s call requestId method task :=
  { h with invoked := hi h.invoked }

theorem Answers.mono {call : Rpc.Call} {requestId : UInt64} {respPayload : Bytes}
    (h : Answers invoked executed s call requestId respPayload) (hi : invoked ⊆ invoked')
    (he : executed ⊆ executed') : Answers invoked' executed' s call requestId respPayload := by
  cases h with
  | direct hasked hinvoked => exact .direct hasked (hi hinvoked)
  | deferred hd hexecuted hresponse => exact .deferred (hd.mono hi) (he hexecuted) hresponse

theorem Serves.mono {t : SessionTask} (h : Serves asked invoked executed s t)
    (hi : invoked ⊆ invoked') (he : executed ⊆ executed') :
    Serves asked invoked' executed' s t := by
  intro call hasked
  have hserves := h call hasked
  cases hinvoke : t.invoke with
  | handler handler =>
    rw [hinvoke] at hserves
    exact hserves
  | applied task response =>
    rw [hinvoke] at hserves
    exact fun r hr => (hserves r hr).mono hi he

theorem Exchanges.mono {asked' : UInt64 → Rpc.Call → Prop}
    (h : p.Exchanges s asked invoked executed) (ha : ∀ r call, asked' r call → asked r call)
    (hi : invoked ⊆ invoked') (he : executed ⊆ executed') :
    p.Exchanges s asked' invoked' executed' := by
  refine Carries.mono h (fun t ht call hc => ?_) (fun t ht call hc => ?_) fun frame hf call hc => ?_
  · exact ht.mono hi he call (ha _ _ hc)
  · obtain ⟨method,hd⟩ := ht call (ha _ _ hc)
    exact ⟨method,hd.mono hi⟩
  · exact (hf call (ha _ _ hc)).mono hi he

omit [Protobuf] [PeerProtobuf] in
theorem respond_eq {requestId : UInt64} {respPayload : Bytes} {frame : Rpc.ResponseFrame}
    (h : Rpc.respond requestId (.ok respPayload) = some frame) :
    frame.1.requestId = requestId ∧ frame.2 = respPayload := by
  rw [Rpc.respond] at h
  split_ifs at h
  cases h
  exact ⟨rfl,rfl⟩

omit [Protobuf] [PeerProtobuf] in
theorem respond_ok {requestId : UInt64} {result : Result Bytes} {frame : Rpc.ResponseFrame}
    (h : Rpc.respond requestId result = some frame) : ∃ respPayload, result = .ok respPayload := by
  cases result with
  | error e => cases h
  | ok respPayload => exact ⟨_,rfl⟩

omit [Protobuf] [PeerProtobuf] in
theorem invokeTask_eq {frame : Rpc.RequestFrame} {t : SessionTask}
    (h : Rpc.invokeTask invokes frame = some t) :
    t.requestId = frame.1.requestId ∧ t.reqPayload = frame.2 := by
  unfold Rpc.invokeTask at h
  split at h
  · cases h
  · split at h <;> cases h
    exact ⟨rfl,rfl⟩

/-- Only the handlers of KV requests queue a task, for the command of the request. -/
theorem mem_queued {handler : Handler} {n n' : RaftNode} {io : DiskOutcome} {reqPayload : Bytes}
    {x r : ℕ} {queued : List ApplyTask} {result : Result Bytes} {task : ApplyTask}
    (h : handler.run cfg n io reqPayload x r = some (n',queued,result)) (htask : task ∈ queued) :
    (∃ method, handler = .kv method ∧
      method.command reqPayload = some task.request) ∧
    task.sessionId = x ∧ task.requestId = r ∧ result = .ok [] := by
  obtain ⟨rfl,-⟩ | ⟨later,rfl,-,hsession,hrequest,hresult⟩ := Handler.run_queues h
  · cases htask
  obtain rfl := List.mem_singleton.mp htask
  refine ⟨?_,hsession,hrequest,hresult⟩
  cases handler with
  | requestVote =>
    rw [Handler.run] at h
    split at h <;> cases h
  | appendEntries =>
    rw [Handler.run] at h
    split at h
    · cases h
    · obtain ⟨_,-,h⟩ := Option.bind_eq_some_iff.mp h
      cases h
  | installSnapshot =>
    rw [Handler.run] at h
    split at h
    · cases h
    · obtain ⟨_,-,h⟩ := Option.bind_eq_some_iff.mp h
      cases h
  | kv method =>
    obtain ⟨⟨n₁,es⟩,hclient,h⟩ := Option.bind_eq_some_iff.mp h
    simp only [Option.pure_def, Option.some.injEq, Prod.mk.injEq] at h
    obtain ⟨-,hqueued,-⟩ := h
    have hmem : task ∈ (enqueued es).map Prod.fst := by
      rw [hqueued]
      exact List.mem_singleton_self _
    obtain ⟨⟨_,entry⟩,he,rfl⟩ := List.mem_map.mp hmem
    have hstep : n.step cfg io (.client method reqPayload x r) = some (n₁,es) := hclient
    obtain ⟨method',reqPayload',hinput,hcommand⟩ :=
      RaftNode.step_queued hstep (mem_enqueued.mp he)
    cases hinput
    exact ⟨method,rfl,hcommand⟩

/-- The handler of a request has run: it has its result, or it has queued the command. -/
theorem Exchanges.of_handler {task : SessionTask} {handler : Handler} {io : DiskOutcome}
    {n : RaftNode} {queued : List ApplyTask} {result : Result Bytes}
    (h : p.Exchanges s asked invoked executed) (hwriter : (p.session s).writer = .invoking task)
    (hinvoke : task.invoke = .handler handler)
    (hrun : handler.run cfg p.node io task.reqPayload s task.requestId.toNat =
      some (n,queued,result)) (hlog : (s,task,result) ∈ invoked)
    (session : p'.session s = (p.session s).finish task.requestId result none)
    (hwaiting : ∀ t ∈ p'.waiting, t ∈ p.waiting ∨ t ∈ queued) :
    p'.Exchanges s asked invoked executed := by
  have hserves : ∀ call, asked task.requestId call →
      Rpc.invokeTask invokes (call.frame task.requestId) = some task := by
    intro call hc
    have hcall := h.invoking task hwriter call hc
    rw [hinvoke] at hcall
    exact hcall
  refine Carries.of_finish h session (fun frame hframe call hc => ?_) fun t ht _ => ?_
  · obtain ⟨respPayload,rfl⟩ := respond_ok hframe
    obtain ⟨hid,hpayload⟩ := respond_eq hframe
    rw [hid, hpayload]
    exact .direct (hserves call (hid ▸ hc)) hlog
  · obtain ht | ht := hwaiting t ht
    · exact Or.inl ht
    obtain ⟨⟨method,rfl,hcommand⟩,hsession,hrequest,rfl⟩ := mem_queued hrun ht
    have hid : UInt64.ofNat t.requestId = task.requestId := by
      rw [hrequest, UInt64.ofNat_toNat]
    refine Or.inr fun call hc => ⟨method,?_⟩
    have hasked := hserves call (hid ▸ hc)
    have hpayload : task.reqPayload = call.reqPayload := (invokeTask_eq hasked).2
    have htask : task = ⟨task.requestId,call.reqPayload,.handler (.kv method)⟩ := by
      rw [← hpayload, ← hinvoke]
    rw [hid]
    exact {
      asked := by rw [hasked]; exact congrArg some htask
      invoked := htask ▸ hlog
      request := hpayload ▸ hcommand
      session := hsession
      id := hid }

/-- A reply that `apply` has executed reaches the session. -/
theorem Exchanges.push {task : ApplyTask} {invokeTask : InvokeTask}
    (h : p.Exchanges task.sessionId asked invoked executed)
    (hhanding : p.handing = some (task,invokeTask)) (hexecuted : (task,invokeTask) ∈ executed)
    (session : p'.session task.sessionId = { p.session task.sessionId with
      queue := (p.session task.sessionId).queue ++
        [⟨UInt64.ofNat task.requestId,[],.applied task invokeTask.response⟩] })
    (hwaiting : ∀ t ∈ p'.waiting, t ∈ p.waiting) :
    p'.Exchanges task.sessionId asked invoked executed := by
  have hmem : task ∈ p.waiting := by simp [waiting, hhanding]
  constructor
  · intro t ht
    rw [session] at ht
    obtain ht | ht := List.mem_append.mp ht
    · exact h.queue t ht
    · obtain rfl := List.mem_singleton.mp ht
      intro call hc response hresponse
      obtain ⟨method,hd⟩ := h.waiting task hmem rfl call hc
      exact .deferred hd hexecuted hresponse
  · intro t ht
    rw [session] at ht
    exact h.invoking t ht
  · intro frame origin hf
    rw [session] at hf
    exact h.responding frame origin hf
  · exact fun t ht => h.waiting t (hwaiting t ht)

/-- The reader gets a frame of the call behind its id. -/
theorem Serves.read {frame : Rpc.RequestFrame} {task : SessionTask}
    (htask : Rpc.invokeTask invokes frame = some task)
    (hread : ∀ call, asked frame.1.requestId call → frame = call.frame frame.1.requestId) :
    Serves asked invoked executed s task := by
  intro call hc
  have hid := (invokeTask_eq htask).1
  rw [hid] at hc ⊢
  have hframe := hread call hc
  have horigin : task.invoke.origin = none := congrArg Reply.origin (replyTo_invokeTask htask)
  cases hinvoke : task.invoke with
  | handler handler => exact hframe ▸ htask
  | applied origin response =>
    rw [hinvoke] at horigin
    cases horigin

/-- A step keeps what a session carries, if the frames that its reader gets are those of the
calls behind their ids. -/
theorem Exchanges.step (h : p.Exchanges s asked invoked executed)
    (hn : p.step cfg l = some p') (hinvoked : (p.invocation cfg l).toList ⊆ invoked)
    (hexecuted : ∀ done ∈ p.handing, done ∈ executed)
    (hread : ∀ frame, l = .session s (.read frame) → ∀ call, asked frame.1.requestId call →
      frame = call.frame frame.1.requestId) : p'.Exchanges s asked invoked executed := by
  cases step_moves hn with
  | quiet _ session _ waiting _ =>
    exact Carries.of_session h (by rw [session]) fun t ht => Or.inl (waiting.subset ht)
  | @acts x action t _ _ hstep session rest =>
    by_cases hx : x = s
    · subst hx
      refine Carries.of_step h hstep (by rw [session, Function.update_self]) rest.waiting ?_
      rintro frame rfl task htask
      exact .read htask (hread frame rfl)
    · exact Carries.of_session h (by rw [session, Function.update_of_ne (Ne.symm hx)])
        fun t ht => Or.inl (rest.waiting ▸ ht)
  | @replies x io task origin response _ _ hwriter hinvoke session rest =>
    by_cases hx : x = s
    · subst hx
      refine Carries.of_finish h (by rw [session, Function.update_self])
        (fun frame hframe call hc => ?_) fun t ht _ => Or.inl (rest.waiting ▸ ht)
      obtain ⟨hid,hpayload⟩ := respond_eq hframe
      have hserves := h.invoking task hwriter call (hid ▸ hc)
      rw [hinvoke] at hserves
      rw [hid, hpayload]
      exact hserves response rfl
    · exact Carries.of_session h (by rw [session, Function.update_of_ne (Ne.symm hx)])
        fun t ht => Or.inl (rest.waiting ▸ ht)
  | @handles x io task handler n queued result _ _ hwriter hinvoke hrun session _ waiting _ _ =>
    have hlog : (x,task,result) ∈ invoked := by
      refine hinvoked (Option.mem_toList.mpr ?_)
      rw [invocation, hwriter]
      dsimp only
      rw [hinvoke]
      dsimp only
      rw [hrun]
      rfl
    by_cases hx : x = s
    · subst hx
      exact h.of_handler hwriter hinvoke hrun hlog (by rw [session, Function.update_self]) waiting
    · refine Carries.of_session h (by rw [session, Function.update_of_ne (Ne.symm hx)])
        fun t ht => ?_
      obtain ht | ht := waiting t ht
      · exact Or.inl ht
      · exact Or.inr ((mem_queued hrun ht).2.1 ▸ hx)
  | @pushes task invokeTask _ hhanding session _ waiting _ _ =>
    by_cases hs : s = task.sessionId
    · subst hs
      exact h.push hhanding (hexecuted _ hhanding) (by rw [session, Function.update_self]) waiting
    · exact Carries.of_session h (by rw [session, Function.update_of_ne hs])
        fun t ht => Or.inl (waiting t ht)

end Answers

/-- The ids of the replies that have been written on a session or may be. -/
def dueIds (p : Process) (s : ℕ) : Multiset UInt64 := (p.due s).map Reply.requestId

/-- The ids of the replies that have been written on a session. -/
def writtenIds (p : Process) (s : ℕ) : Multiset UInt64 :=
  ↑((p.session s).written.map Reply.requestId)

/-- The ids of the replies that may still be written on a session. -/
def pendingIds (p : Process) (s : ℕ) : Multiset UInt64 :=
  (↑(p.session s).writer.due + ↑((p.session s).queue.map replyTo) +
    repliesTo s p.waiting).map Reply.requestId

theorem dueIds_eq (p : Process) (s : ℕ) : p.dueIds s = p.writtenIds s + p.pendingIds s := by
  have hwritten : p.writtenIds s =
      Multiset.map Reply.requestId (↑(p.session s).written : Multiset Reply) := rfl
  rw [dueIds, pendingIds, hwritten, ← Multiset.map_add]
  congr 1
  rw [due, Session.due, Session.settled]
  ac_rfl

/-- What a session carries is under the ids that are pending on it. -/
theorem Carries.pending (p : Process) (s : ℕ) : p.Carries s (fun t => t.requestId ∈ p.pendingIds s)
    (fun task => UInt64.ofNat task.requestId ∈ p.pendingIds s)
    (fun frame => frame.1.requestId ∈ p.pendingIds s) where
  queue t ht := by
    refine Multiset.mem_map_of_mem Reply.requestId (a := replyTo t) ?_
    exact Multiset.mem_add.mpr (Or.inl (Multiset.mem_add.mpr
      (Or.inr (List.mem_map_of_mem ht))))
  invoking t ht := by
    refine Multiset.mem_map_of_mem Reply.requestId (a := replyTo t) ?_
    rw [ht]
    exact Multiset.mem_add.mpr (Or.inl (Multiset.mem_add.mpr
      (Or.inl (List.mem_singleton_self _))))
  responding frame origin hf := by
    refine Multiset.mem_map_of_mem Reply.requestId (a := ⟨frame.1.requestId,origin⟩) ?_
    rw [hf]
    exact Multiset.mem_add.mpr (Or.inl (Multiset.mem_add.mpr
      (Or.inl (List.mem_singleton_self _))))
  waiting t ht hs := by
    refine Multiset.mem_map_of_mem Reply.requestId (a := t.reply) ?_
    exact Multiset.mem_add.mpr (Or.inr (List.mem_map_of_mem
      (List.mem_filter.mpr ⟨ht,by simpa using hs⟩)))

/-- Calls may come to stand behind ids under which nothing is pending. -/
theorem Exchanges.widen [Protobuf] [PeerProtobuf] {asked asked' : UInt64 → Rpc.Call → Prop}
    {invoked : List (ℕ × SessionTask × Result Bytes)}
    {executed : List (ApplyTask × InvokeTask)} (h : p.Exchanges s asked invoked executed)
    (hnew : ∀ r call, asked' r call → r ∈ p.pendingIds s → asked r call) :
    p.Exchanges s asked' invoked executed := by
  have hpending := Carries.pending p s
  constructor
  · exact fun t ht call hc => h.queue t ht call (hnew _ _ hc (hpending.queue t ht))
  · exact fun t ht call hc => h.invoking t ht call (hnew _ _ hc (hpending.invoking t ht))
  · exact fun frame origin hf call hc =>
      h.responding frame origin hf call (hnew _ _ hc (hpending.responding frame origin hf))
  · exact fun t ht hs call hc => h.waiting t ht hs call (hnew _ _ hc (hpending.waiting t ht hs))

/-- The requests that a step reads on a session. -/
def readBy : Label → ℕ → List Rpc.RequestFrame
  | .session y (.read frame),x => if y = x then [frame] else []
  | _,_ => []

/-- The responses that a step finishes to write on a session. -/
def writtenBy (p : Process) : Label → ℕ → List Rpc.ResponseFrame
  | .session y action,x => if y = x then (p.session y).writtenBy action else []
  | _,_ => []

/-- What a step writes is what the writer of the session was writing. -/
theorem mem_writtenBy {l : Label} {frame : Rpc.ResponseFrame} (h : frame ∈ p.writtenBy l s) :
    ∃ origin, (p.session s).writer = .responding frame origin := by
  cases l with
  | session y action =>
    rw [writtenBy] at h
    split_ifs at h with hy
    · subst hy
      unfold Session.writtenBy at h
      split at h
      · split at h
        · rename_i frame' origin hwriter
          obtain rfl := List.mem_singleton.mp h
          exact ⟨origin,hwriter⟩
        · cases h
      · cases h
    · cases h
  | _ => cases h

theorem mem_readBy {l : Label} {frame : Rpc.RequestFrame} (h : l = .session s (.read frame)) :
    frame ∈ readBy l s := by
  subst h
  rw [readBy, if_pos rfl]
  exact List.mem_singleton_self _

section Passed
variable [Protobuf] [PeerProtobuf] {cfg : RaftConfig} {l : Label}

/-- What a step does to the frames that have passed on a session is what its own coroutines do. -/
theorem step_passed (h : p.step cfg l = some p') (x : ℕ) :
    ((p'.session x).read = (p.session x).read ∧
      (p'.session x).written = (p.session x).written ∧ p.writtenBy l x = []) ∨
    ∃ action, l = .session x action ∧ (p.session x).step action = some (p'.session x) := by
  have hupdate : ∀ {y t}, p'.session = Function.update p.session y t →
      t.read = (p.session y).read → t.written = (p.session y).written →
      (p'.session x).read = (p.session x).read ∧
        (p'.session x).written = (p.session x).written := by
    intro y t hsession hread hwritten
    by_cases hx : x = y
    · subst hx
      rw [hsession, Function.update_self]
      exact ⟨hread,hwritten⟩
    · rw [hsession, Function.update_of_ne hx]
      exact ⟨rfl,rfl⟩
  cases step_moves h with
  | quiet outside session _ _ _ =>
    refine Or.inl ⟨by rw [session],by rw [session],?_⟩
    cases l with
    | session y action => exact absurd rfl (outside y action)
    | _ => rfl
  | @acts y action t _ _ hstep session _ =>
    by_cases hx : x = y
    · subst hx
      exact Or.inr ⟨action,rfl,by rw [session, Function.update_self]; exact hstep⟩
    · rw [session, Function.update_of_ne hx]
      exact Or.inl ⟨rfl,rfl,if_neg (Ne.symm hx)⟩
  | replies _ _ _ session _ =>
    obtain ⟨hread,hwritten⟩ := hupdate session rfl rfl
    exact Or.inl ⟨hread,hwritten,ite_self _⟩
  | handles _ _ _ _ session _ _ _ _ =>
    obtain ⟨hread,hwritten⟩ := hupdate session rfl rfl
    exact Or.inl ⟨hread,hwritten,ite_self _⟩
  | pushes _ session _ _ _ _ =>
    obtain ⟨hread,hwritten⟩ := hupdate session rfl rfl
    exact Or.inl ⟨hread,hwritten,rfl⟩

/-- No id becomes due but by reading its request. -/
theorem step_dueIds (h : p.step cfg l = some p') (x : ℕ) :
    p'.dueIds x ≤ ↑((readBy l x).map fun frame => frame.1.requestId) + p.dueIds x := by
  have hquiet : p'.due x ≤ p.due x →
      p'.dueIds x ≤ ↑((readBy l x).map fun frame => frame.1.requestId) + p.dueIds x :=
    fun hle => (Multiset.map_le_map hle).trans (Multiset.le_add_left _ _)
  cases step_due h with
  | quiet due _ _ => exact hquiet (due x)
  | @reads s r due others read othersRead _ =>
    by_cases hx : x = s
    · subst hx
      obtain ⟨hread,-⟩ | ⟨action,rfl,hstep⟩ := step_passed h x
      · simp [hread] at read
      · obtain hread | ⟨frame,rfl,hread⟩ := Session.step_read hstep
        · simp [hread] at read
        · rw [hread, List.append_cancel_left_eq, List.singleton_inj] at read
          subst read
          have hle := Multiset.map_le_map (f := Reply.requestId) due
          rw [Multiset.map_cons] at hle
          rw [readBy, if_pos rfl]
          exact hle
    · exact hquiet (others x hx)
  | @defers s r task rest before after others _ _ _ _ =>
    by_cases hx : x = s
    · subst hx
      refine le_trans (le_of_eq ?_) (Multiset.le_add_left _ _)
      rw [dueIds, dueIds, before, after, Multiset.map_cons, Multiset.map_cons]
    · exact hquiet (others x hx)

/-- The ids that count as written are those of the responses that have been written. -/
theorem step_writtenIds (h : p.step cfg l = some p') (x : ℕ) : p'.writtenIds x =
    p.writtenIds x + ↑((p.writtenBy l x).map fun frame => frame.1.requestId) := by
  obtain ⟨-,hwritten,hnone⟩ | ⟨action,rfl,hstep⟩ := step_passed h x
  · rw [writtenIds, hwritten, hnone]
    exact (add_zero _).symm
  · rw [writtenIds, Session.step_written hstep, writtenBy, if_pos rfl, ← Multiset.coe_add]
    rfl

/-- An id is pending from the time its request is read until its response is written. -/
theorem step_pendingIds (h : p.step cfg l = some p') (x : ℕ) :
    p'.pendingIds x + ↑((p.writtenBy l x).map fun frame => frame.1.requestId) ≤
      ↑((readBy l x).map fun frame => frame.1.requestId) + p.pendingIds x := by
  have hdue := step_dueIds h x
  rw [dueIds_eq, dueIds_eq, step_writtenIds h x] at hdue
  refine Multiset.le_of_add_le_add_left (s := p.writtenIds x) ?_
  calc p.writtenIds x + (p'.pendingIds x + ↑((p.writtenBy l x).map fun frame => frame.1.requestId))
      = p.writtenIds x + ↑((p.writtenBy l x).map fun frame => frame.1.requestId) +
          p'.pendingIds x := by ac_rfl
    _ ≤ ↑((readBy l x).map fun frame => frame.1.requestId) +
          (p.writtenIds x + p.pendingIds x) := hdue
    _ = _ := by ac_rfl

/-- The replies that `apply` hands over are those it has executed. -/
theorem step_handing (h : p.step cfg l = some p') : ∀ done ∈ p'.handing.toList ++ p'.applying,
    done ∈ p.handing.toList ++ p.applying ∨ done ∈ p'.executed l := by
  intro done hdone
  cases step_moves h with
  | quiet _ _ _ _ handing => exact handing done hdone
  | acts _ _ _ rest | replies _ _ _ _ rest =>
    rw [rest.handing, rest.applying] at hdone
    exact Or.inl hdone
  | handles _ _ _ _ _ _ _ handing applying =>
    rw [handing, applying] at hdone
    exact Or.inl hdone
  | pushes _ _ _ _ handing applying =>
    rw [handing, applying] at hdone
    exact Or.inl (List.mem_append_right _ hdone)

omit [Protobuf] [PeerProtobuf] in
/-- Nothing is due on a session that has not read anything. -/
theorem Accounted.due_new (ha : p.Accounted) (hnew : p.session s = .new) : p.due s = 0 := by
  have hle := (ha.sessions s).counted
  rw [hnew] at hle
  exact Multiset.map_eq_zero.mp (Multiset.le_zero.mp hle)

omit [Protobuf] [PeerProtobuf] in
theorem Accounted.pending_new (ha : p.Accounted) (hnew : p.session s = .new) :
    p.pendingIds s = 0 := by
  have hdue := p.dueIds_eq s
  rw [dueIds, ha.due_new hnew, Multiset.map_zero] at hdue
  exact Multiset.le_zero.mp ((Multiset.le_add_left _ _).trans hdue.ge)

omit [Protobuf] [PeerProtobuf] in
/-- No task waits for a session that has not read anything. -/
theorem Accounted.waiting_ne (ha : p.Accounted) (hnew : p.session s = .new) :
    ∀ task ∈ p.waiting, task.sessionId ≠ s := by
  rintro task htask rfl
  have hmem : task.reply ∈ p.due task.sessionId :=
    Multiset.mem_add.mpr (Or.inr (List.mem_map_of_mem (List.mem_filter.mpr ⟨htask,by simp⟩)))
  rw [ha.due_new hnew] at hmem
  exact absurd hmem (Multiset.notMem_zero _)

/-- The sessions that have not been assigned stay new. -/
theorem step_unopened (ha : p.Accounted) (h : p.step cfg l = some p')
    (hunopened : ∀ x, p.sessionId ≤ x → p.session x = .new) :
    p.sessionId ≤ p'.sessionId ∧ ∀ x, p'.sessionId ≤ x → p'.session x = .new := by
  have hupdate : ∀ {y t}, y < p.sessionId → p'.sessionId = p.sessionId →
      p'.session = Function.update p.session y t →
      p.sessionId ≤ p'.sessionId ∧ ∀ x, p'.sessionId ≤ x → p'.session x = .new := by
    intro y t hy hid hsession
    refine ⟨hid.ge,fun x hx => ?_⟩
    rw [hsession, Function.update_of_ne (by omega)]
    exact hunopened x (hid ▸ hx)
  cases step_moves h with
  | quiet _ session ids _ _ => exact ⟨ids,fun x hx => session ▸ hunopened x (ids.trans hx)⟩
  | acts hopen _ session rest => exact hupdate hopen rest.ids session
  | replies hopen _ _ session rest => exact hupdate hopen rest.ids session
  | handles hopen _ _ _ session ids _ _ _ => exact hupdate hopen ids session
  | @pushes task invokeTask _ hhanding session ids _ _ _ =>
    -- a reply is only handed to a session that has read its request
    refine hupdate (Nat.lt_of_not_le fun hle => ?_) ids session
    exact ha.waiting_ne (hunopened _ hle) task (by simp [waiting, hhanding]) rfl

end Passed
end Process
end Foskv.Raft
