import Foskv.Raft.Deployment

/-! What holds of one channel between two members, whatever its consumer, the process at its other
end and the rest of the deployment do. -/
namespace Foskv.Rpc.RpcConsumer
variable {s s' : RpcConsumer} {l : Label}

/-- The response to a call is awaited under an id of the last connection. -/
def Awaits (s : RpcConsumer) (r : UInt64) (k : CallId) : Prop :=
  s.Awake ∧ r ∈ s.outstanding ∧ s.callbacks r = some (some k)

/-- No response is awaited anew but by writing its request. -/
theorem step_awaits (hm : s.Matched) (h : s.step l = some s') (hl : l ≠ .written true)
    {r : UInt64} {k : CallId} (hawaits : s'.Awaits r k) :
    s.Awaits r k ∧ s'.connection = s.connection := by
  obtain ⟨hawake,hr,hk⟩ := hawaits
  have herase : ∀ {requestId}, erase s.callbacks requestId r = some (some k) →
      s.callbacks r = some (some k) := by
    intro requestId hk
    rw [erase_apply] at hk
    split_ifs at hk
    exact hk
  cases steps_of_step h with
  | stores free connected =>
    obtain ⟨j,hj,-⟩ := hm.outstanding hawake r hr
    have hstore := store_callbacks { s with calls := s.calls + 1 } s.calls r
    rw [if_neg] at hstore
    · exact ⟨⟨hawake,hr,hstore.symm.trans hk⟩,rfl⟩
    · rintro ⟨rfl,hnone⟩
      exact absurd (hnone.symm.trans hj) nofun
  | connects free closed => exact ⟨⟨hawake,hr,hk⟩,rfl⟩
  | connected awaits => cases hr
  | connectFailed awaits => exact ⟨⟨hawake,hr,hk⟩,rfl⟩
  | written awaits => exact absurd rfl hl
  | writeFailed awaits => exact ⟨⟨hawake,hr,hk⟩,rfl⟩
  | returned => exact ⟨⟨hawake,hr,hk⟩,rfl⟩
  | unknown reading absent => exact ⟨⟨hawake,List.mem_of_mem_erase hr,hk⟩,rfl⟩
  | @invokes frame call reading found =>
    refine ⟨⟨⟨by simp [reading],by simp [reading]⟩,List.mem_of_mem_erase hr,?_⟩,rfl⟩
    have hne : r ≠ frame.1.requestId := by
      rintro rfl
      exact absurd ((Function.update_self _ _ _).symm.trans hk) (by simp)
    exact (Function.update_of_ne hne _ _).symm.trans hk
  | breaks reading => exact absurd rfl hawake.2
  | drops requestId reading => exact absurd rfl hawake.2
  | callbackReturned awaits =>
    exact ⟨⟨⟨by simp [awaits],by simp [awaits]⟩,hr,herase hk⟩,rfl⟩
  | stopped stopping => exact absurd rfl hawake.1
  | shutdownAgain => exact ⟨⟨hawake,hr,hk⟩,rfl⟩
  | shutdown => exact ⟨⟨hawake,hr,hk⟩,rfl⟩
  | shutdownReturned => exact ⟨⟨hawake,hr,hk⟩,rfl⟩

/-- A written request is the only one that is awaited anew. -/
theorem written_awaits (hm : s.Matched) {call : CallId} {requestId : UInt64}
    (hholder : s.holder = some (.writing call requestId)) (h : s.step (.written true) = some s')
    {r : UInt64} {k : CallId} (hawaits : s'.Awaits r k) :
    s.Awaits r k ∨ r = requestId ∧ k = call ∧ s.Awake := by
  cases steps_of_step h with
  | @written call' requestId' awaits =>
    obtain ⟨rfl,rfl⟩ : call = call' ∧ requestId = requestId' := by simpa [hholder] using awaits
    obtain ⟨hawake,hr,hk⟩ := hawaits
    obtain hr | hr := List.mem_append.mp hr
    · exact Or.inl ⟨hawake,hr,hk⟩
    · obtain rfl := List.mem_singleton.mp hr
      have hstored := hm.writing hawake call r hholder
      obtain rfl : k = call := by simpa using hk.symm.trans hstored
      exact Or.inr ⟨rfl,rfl,hawake⟩

theorem step_calls (h : s.step l = some s') :
    s'.calls = if l matches .call then s.calls + 1 else s.calls := by
  cases steps_of_step h <;> rfl

/-- The reader awaits a callback until it returns. -/
theorem step_invoking (hh : s.Held) (h : s.step l = some s') (hl : l ≠ .callbackReturned)
    {r : UInt64} (hreader : s.reader = .invoking r) : s'.reader = .invoking r := by
  cases steps_of_step h with
  | connected awaits => exact absurd (hreader.symm.trans (hh.connecting _ awaits).2) nofun
  | unknown reading _ | invokes reading _ | breaks reading | drops _ reading =>
    exact absurd (hreader.symm.trans reading) nofun
  | callbackReturned awaits => exact absurd rfl hl
  | stopped stopping => exact absurd (hreader.symm.trans stopping) nofun
  | _ => exact hreader

end Foskv.Rpc.RpcConsumer

namespace Foskv.Raft

/-- The tasks whose functions have not been called. -/
def Session.held (t : Session) : List SessionTask :=
  (match t.writer with
    | .invoking task => [task]
    | _ => []) ++ t.queue

section Held
variable {t t' : Session} {action : Action}

/-- The tasks of a session wait in the order in which their requests were read. -/
theorem Session.step_held (h : t.step action = some t') : t'.held = t.held ++
    match action with
    | .read frame => (Rpc.invokeTask invokes frame).toList
    | _ => [] := by
  cases action with
  | read frame =>
    rw [step] at h
    split_ifs at h
    cases h
    exact (List.append_assoc _ _ _).symm
  | readFailed | readerClosed | writerClosed =>
    rw [step] at h
    split_ifs at h
    cases h
    simp_all [held]
  | pop =>
    rw [step] at h
    split at h
    · rename_i hwriter hqueue
      cases h
      simp [held, hwriter]
    · rename_i hwriter hqueue
      cases h
      simp [held, hwriter, hqueue]
    · rename_i hwriter
      split_ifs at h
      · cases h
        simp [held, hwriter]
      · split at h
        · cases h
        · rename_i hqueue
          cases h
          simp [held, hwriter, hqueue]
    · cases h
  | invoke io => cases h
  | written ok =>
    rw [step] at h
    split at h
    · rename_i hwriter
      split_ifs at h <;> cases h <;> simp [held, hwriter]
    · cases h

/-- No response begins to be written in a step of the session, and one is not written for ever. -/
theorem Session.step_responding (h : t.step action = some t') {frame : Rpc.ResponseFrame}
    {origin : Option ApplyTask} (hf : t'.writer = .responding frame origin) :
    t.writer = .responding frame origin ∧ ∀ ok, action ≠ .written ok := by
  cases action with
  | read frame | readFailed | readerClosed =>
    rw [step] at h
    split_ifs at h
    cases h
    exact ⟨hf,by simp⟩
  | pop =>
    rw [step] at h
    split at h
    · cases h
      cases hf
    · cases h
      cases hf
    · split_ifs at h
      · cases h
        cases hf
      · split at h
        · cases h
        · cases h
          cases hf
    · cases h
  | invoke io => cases h
  | written ok =>
    rw [step] at h
    split at h
    · split_ifs at h <;> cases h <;> cases hf
    · cases h
  | writerClosed =>
    rw [step] at h
    split_ifs at h
    cases h
    cases hf

theorem Session.held_finish {task : SessionTask} (hwriter : t.writer = .invoking task)
    (requestId : UInt64) (result : Result Bytes) (origin : Option ApplyTask) :
    (t.finish requestId result origin).held = t.held.tail := by
  rw [held, held, hwriter, finish]
  cases Rpc.respond requestId result <;> rfl

end Held

/-- What is known of the frames of a lane: each carries its message, and a response for which a
callback is awaited replies to the request of the callback's call. -/
structure Lane.Holds [PeerWire] (lane : Lane) (asks : UInt64 → ℕ → Prop) (called : List Body) :
    Prop where
  up : ∀ e ∈ lane.up, e.2.Sendable ∧ (∃ r, e.1 = e.2.call.frame r) ∧
    ∀ k, asks e.1.1.requestId k → called[k]? = some e.2
  down : ∀ e ∈ lane.down, e.1.2 = e.2.bytes ∧
    ∀ k, asks e.1.1.requestId k → ∃ b, called[k]? = some b ∧ b.Replies e.2

/-- The same of the tasks of its session, and of the response that the session writes. -/
structure Lane.Serves [PeerWire] (lane : Lane) (asks : UInt64 → ℕ → Prop) (called : List Body)
    (t : Session) : Prop where
  tasks : List.Forall₂ (fun task b => b.Sendable ∧
    task = ⟨task.requestId,b.payload,.handler b.handler⟩ ∧
      ∀ k, asks task.requestId k → called[k]? = some b) t.held lane.tasks
  replying : ∀ frame origin, t.writer = .responding frame origin → ∃ reply,
    lane.replying = some reply ∧ frame.2 = reply.bytes ∧
      ∀ k, asks frame.1.requestId k → ∃ b, called[k]? = some b ∧ b.Replies reply

theorem Session.mem_held {task : SessionTask} {p : Process} {x : ℕ}
    (h : task ∈ (p.session x).held) : task.requestId ∈ p.pendingIds x := by
  have hpending := Process.Carries.pending p x
  obtain h | h := List.mem_append.mp h
  · split at h
    · rename_i hwriter
      obtain rfl := List.mem_singleton.mp h
      exact hpending.invoking task hwriter
    · cases h
  · exact hpending.queue task h

section Lanes
variable [PeerWire] {lane lane' : Lane} {asks asks' : UInt64 → ℕ → Prop}
  {called called' : List Body} {t t' : Session}

omit [PeerWire] in
theorem called_of_isPrefix (h : called <+: called') {k : ℕ} {b : Body}
    (hk : called[k]? = some b) : called'[k]? = some b := by
  obtain ⟨rest,rfl⟩ := h
  rw [List.getElem?_append_left (List.getElem?_eq_some_iff.mp hk).1, hk]

/-- Less is awaited for the ids of the lane, and more calls have been made. -/
theorem Lane.Holds.mono (h : lane.Holds asks called) (hcalled : called <+: called')
    (hup : ∀ e ∈ lane.up, ∀ k, asks' e.1.1.requestId k → asks e.1.1.requestId k)
    (hdown : ∀ e ∈ lane.down, ∀ k, asks' e.1.1.requestId k → asks e.1.1.requestId k) :
    lane.Holds asks' called' where
  up e he := by
    obtain ⟨hsend,hframe,hasks⟩ := h.up e he
    exact ⟨hsend,hframe,fun k hk => called_of_isPrefix hcalled (hasks k (hup e he k hk))⟩
  down e he := by
    obtain ⟨hbytes,hasks⟩ := h.down e he
    refine ⟨hbytes,fun k hk => ?_⟩
    obtain ⟨b,hb,hreplies⟩ := hasks k (hdown e he k hk)
    exact ⟨b,called_of_isPrefix hcalled hb,hreplies⟩

theorem Lane.Serves.mono (h : lane.Serves asks called t) (hcalled : called <+: called')
    (htasks : ∀ task ∈ t.held, ∀ k, asks' task.requestId k → asks task.requestId k)
    (hwriter : ∀ frame origin, t.writer = .responding frame origin →
      ∀ k, asks' frame.1.requestId k → asks frame.1.requestId k) :
    lane.Serves asks' called' t where
  tasks := by
    refine (List.forall₂_iff_zip.mpr ⟨h.tasks.length_eq,fun {task b} hmem => ?_⟩)
    obtain ⟨hsend,htask,hasks⟩ := (List.forall₂_iff_zip.mp h.tasks).2 hmem
    exact ⟨hsend,htask,fun k hk =>
      called_of_isPrefix hcalled (hasks k (htasks task (List.of_mem_zip hmem).1 k hk))⟩
  replying frame origin hf := by
    obtain ⟨reply,hreply,hbytes,hasks⟩ := h.replying frame origin hf
    refine ⟨reply,hreply,hbytes,fun k hk => ?_⟩
    obtain ⟨b,hb,hreplies⟩ := hasks k (hwriter frame origin hf k hk)
    exact ⟨b,called_of_isPrefix hcalled hb,hreplies⟩

/-- A session that has just been opened serves nothing. -/
theorem Lane.Serves.new (h : lane.tasks = []) : lane.Serves asks called .new where
  tasks := by
    rw [h]
    exact .nil
  replying _ _ hf := nomatch hf

/-- The session takes a step in which it reads no request. -/
theorem Lane.Serves.step (h : lane.Serves asks called t) {action : Action}
    (hstep : t.step action = some t') (hread : ∀ frame, action ≠ .read frame)
    (hreplying : (∀ ok, action ≠ .written ok) → lane'.replying = lane.replying)
    (htasks : lane'.tasks = lane.tasks) : lane'.Serves asks called t' where
  tasks := by
    have hheld : t'.held = t.held := by
      rw [Session.step_held hstep]
      cases action with
      | read frame => exact absurd rfl (hread frame)
      | _ => exact List.append_nil _
    rw [hheld, htasks]
    exact h.tasks
  replying frame origin hf := by
    obtain ⟨hf,hwritten⟩ := Session.step_responding hstep hf
    rw [hreplying hwritten]
    exact h.replying frame origin hf

/-- The session reads the request of a frame. -/
theorem Lane.Serves.read (h : lane.Serves asks called t) {b : Body} {requestId : UInt64}
    (hstep : t.step (.read (b.call.frame requestId)) = some t') (hsendable : b.Sendable)
    (hasks : ∀ k, asks requestId k → called[k]? = some b) {up : List (Rpc.RequestFrame × Body)} :
    Lane.Serves { lane with up := up, tasks := lane.tasks ++ [b] } asks called t' where
  tasks := by
    have hheld := Session.step_held hstep
    dsimp only at hheld
    rw [Body.invokeTask_call] at hheld
    rw [hheld]
    exact List.rel_append h.tasks (.cons ⟨hsendable,rfl,hasks⟩ .nil)
  replying frame origin hf := h.replying frame origin (Session.step_responding hstep hf).1

/-- The function of the first task returns, and its reply is written or dropped. -/
theorem Lane.Serves.finish (h : lane.Serves asks called t) {task : SessionTask}
    (hwriter : t.writer = .invoking task) {b reply : Body} {rest : List Body}
    (htasks : lane.tasks = b::rest) (hreplies : b.Replies reply)
    (hfinish : t' = t.finish task.requestId (.ok reply.bytes) none) {events : List Event}
    (hevents : Deployment.replyOf events = some reply) :
    Lane.Serves { lane with tasks := rest, replying := Deployment.replying t' events }
      asks called t' := by
  have hheld : t.held = task::t.queue := by
    rw [Session.held, hwriter]
    rfl
  have hserved := h.tasks
  rw [htasks, hheld] at hserved
  obtain ⟨⟨-,-,hasks⟩,hrest⟩ := List.forall₂_cons.mp hserved
  subst hfinish
  constructor
  · rw [Session.held_finish hwriter, hheld]
    exact hrest
  · intro frame origin hf
    have hrespond : Rpc.respond task.requestId (.ok reply.bytes) = some frame := by
      rw [Session.finish] at hf
      dsimp only at hf
      split at hf
      · cases hf
      · cases hf
        assumption
    obtain ⟨hid,hbytes⟩ := Process.respond_eq hrespond
    refine ⟨reply,?_,hbytes,fun k hk => ⟨b,hasks k (hid ▸ hk),hreplies⟩⟩
    dsimp only
    rw [Deployment.replying, hf]
    exact hevents

end Lanes

/-- The function for request `b` is called on session `x` and does what the node does with it;
`reply` is its result. -/
structure Lane.Calls [Protobuf] [PeerWire] (lane : Lane) (cfg : RaftConfig) (io : DiskOutcome)
    (sender : MemberId) (x : ℕ) (p p' : Process) (b reply : Body) (before : List Event) :
    Prop where
  task : ∃ task, (p.session x).writer = .invoking task ∧ task.invoke = .handler b.handler ∧
    p'.session = Function.update p.session x
      ((p.session x).finish task.requestId (.ok reply.bytes) none)
  tasks : ∃ rest, lane.tasks = b::rest
  sendable : b.Sendable
  replies : b.Replies reply
  node : p.node.step cfg io (.receive sender b []) = some (p'.node,before ++ [.sent sender reply])
  waiting : ∀ task ∈ p'.waiting, task ∈ p.waiting

section Calls
variable [Protobuf] [PeerWire] {lane : Lane} {asks : UInt64 → ℕ → Prop} {called : List Body}
  {cfg : RaftConfig} {io : DiskOutcome} {x : ℕ} {p p' : Process}

theorem Lane.Serves.calls (h : lane.Serves asks called (p.session x))
    (hstep : p.step cfg (.session x (.invoke io)) = some p') (sender : MemberId) :
    ∃ b reply before, lane.Calls cfg io sender x p p' b reply before := by
  have hserved := h.tasks
  have hhead : ∀ {task}, (p.session x).writer = .invoking task →
      (p.session x).held = task::(p.session x).queue := by
    intro task hwriter
    rw [Session.held, hwriter]
    rfl
  rw [Process.step] at hstep
  split_ifs at hstep
  rw [Process.invoke] at hstep
  split at hstep
  · rename_i task hwriter
    rw [hhead hwriter] at hserved
    obtain ⟨b,rest,⟨hsendable,htask,-⟩,-,htasks⟩ := List.forall₂_cons_left_iff.mp hserved
    have hinvoke : task.invoke = .handler b.handler := congrArg Rpc.InvokeTask.invoke htask
    have hpayload : task.reqPayload = b.payload := congrArg Rpc.InvokeTask.reqPayload htask
    rw [hinvoke] at hstep
    dsimp only at hstep
    split_ifs at hstep
    obtain ⟨⟨n,queued,result⟩,hrun,hstep⟩ := Option.bind_eq_some_iff.mp hstep
    obtain rfl := Option.some.inj hstep
    rw [hpayload] at hrun
    obtain ⟨rfl,before,reply,hreplies,rfl,hreceive⟩ := hsendable.run_eq hrun sender []
    refine ⟨b,reply,before,⟨task,hwriter,hinvoke,rfl⟩,⟨rest,htasks⟩,hsendable,hreplies,hreceive,
      fun t ht => ?_⟩
    obtain ⟨-,hnode⟩ | ⟨_,hnil,-⟩ := Handler.run_queues hrun
    · rw [Process.waiting, hnode] at ht
      exact ht
    · cases hnil
  · cases hstep

end Calls

namespace Channel

/-- Which calls the consumer awaits a response for, on a connection. -/
def Asks (ch : Channel) (c : ℕ) (r : UInt64) (k : ℕ) : Prop :=
  c = ch.consumer.connection ∧ ch.consumer.Awaits r k

section Sound
variable [PeerWire]

/-- The calls by their numbers. -/
def calls (ch : Channel) (k : ℕ) : Rpc.Call :=
  ((ch.called[k]?).map Body.call).getD ⟨.kRaft,.kRaftRequestVote,[]⟩

/-- The consumer and the process at the other end, without the messages. -/
def link (ch : Channel) (p : Process) (connection : ℕ → Option ℕ)
    (invoked : List (ℕ × SessionTask × Result Bytes))
    (executed : List (ApplyTask × InvokeTask)) : Link where
  consumer := ch.consumer
  process := p
  connection := connection
  up c := (ch.lane c).up.map Prod.fst
  down c := (ch.lane c).down.map Prod.fst
  invoked := invoked
  executed := executed

/-- What holds of a channel in every run; `connection` are the sessions that `p` has opened for
it. -/
structure Sound [Protobuf] (ch : Channel) (p : Process) (connection : ℕ → Option ℕ) : Prop where
  linked : ∃ invoked executed, (ch.link p connection invoked executed).Linked ch.calls
  calls : ch.consumer.calls = ch.called.length
  pending : ∀ b ∈ ch.pending, b.isReply = false
  called : ∀ b ∈ ch.called, b.Sendable
  holds : ∀ c, (ch.lane c).Holds (ch.Asks c) ch.called
  serves : ∀ c x, connection x = some c →
    (ch.lane c).Serves (ch.Asks c) ch.called (p.session x)
  unowned : ∀ c, (∀ x, connection x ≠ some c) →
    (ch.lane c).tasks = [] ∧ (ch.lane c).replying = none
  callback : ∀ e, ch.callback = some e → (∃ r, ch.consumer.reader = .invoking r) ∧
    e.2.1 = e.2.2.bytes ∧ ∃ b, ch.called[e.1]? = some b ∧ b.Replies e.2.2

theorem calls_length (ch : Channel) (k : ℕ) : (ch.calls k).reqPayload.length < 2 ^ 32 := by
  have hmax : Proto3.maxSerializedSize < 2 ^ 32 := by decide
  rw [calls]
  cases ch.called[k]? with
  | none => exact Nat.two_pow_pos 32
  | some b =>
    change b.payload.length < 2 ^ 32
    rw [Body.payload]
    split_ifs with hsize
    · exact hsize.trans_lt hmax
    · exact Nat.two_pow_pos 32

theorem calls_of_called {ch : Channel} {k : ℕ} {b : Body} (h : ch.called[k]? = some b) :
    ch.calls k = b.call := by
  rw [calls, h]
  rfl

namespace Sound
variable [Protobuf] {ch ch' : Channel} {p p' : Process} {connection : ℕ → Option ℕ}

theorem init {n : RaftNode} (htasks : n.stateMachine.tasks = []) :
    Sound .init (.init n) fun _ => none where
  linked := ⟨[],[],.init htasks⟩
  calls := rfl
  pending _ hb := nomatch hb
  called _ hb := nomatch hb
  holds _ := ⟨nofun,nofun⟩
  serves _ _ hx := nomatch hx
  unowned _ _ := ⟨rfl,rfl⟩
  callback _ he := nomatch he

omit [Protobuf] in
/-- The condition of the consumer's own steps holds with the calls of the channel. -/
theorem regular {l : Rpc.RpcConsumer.Label} {s : Link} (hconsumer : s.consumer = ch.consumer)
    (hcall : l = .call → ch.consumer.streamValid ∨ ch.consumer.isRunning →
      ch.consumer.callbacks ch.consumer.requestId = none)
    (hconnected : l = .connected true → ch.consumer.callbacks ch.consumer.requestId = none) :
    s.Regular ch'.calls (.consumer l) := by
  cases l with
  | call =>
    rw [Link.Regular, hconsumer]
    exact hcall rfl
  | connected ok =>
    rw [Link.Regular, hconsumer]
    rintro rfl
    exact hconnected rfl
  | written ok =>
    rw [Link.Regular]
    split
    · exact ch'.calls_length _
    · trivial
  | _ => trivial

/-- A step of the consumer in which nothing is sent or received. -/
theorem quiet (h : ch.Sound p connection) {l : Rpc.RpcConsumer.Label}
    {consumer : Rpc.RpcConsumer} {pending called : List Body}
    (hstep : ch.consumer.step l = some consumer)
    (houtside : l ≠ .written true ∧ ∀ frame, l ≠ .received (.ok frame))
    (hregular : ∀ invoked executed, (ch.link p connection invoked executed).Regular
      { ch with called := called }.calls (.consumer l))
    (hcallback : l = .callbackReturned → ch.callback = none)
    (hle : ch.called <+: called) (hcalls : consumer.calls = called.length)
    (hpending : ∀ b ∈ pending, b.isReply = false) (hcalled : ∀ b ∈ called, b.Sendable) :
    Sound { ch with consumer := consumer, pending := pending, called := called } p connection := by
  obtain ⟨invoked,executed,hlinked⟩ := h.linked
  have hasks : ∀ c r k, Asks { ch with consumer := consumer } c r k → ch.Asks c r k := by
    rintro c r k ⟨rfl,hk⟩
    obtain ⟨hk,hconnection⟩ :=
      Rpc.RpcConsumer.step_awaits hlinked.matched hstep houtside.1 hk
    exact ⟨hconnection,hk⟩
  have hcongr : (ch.link p connection invoked executed).Linked
      { ch with called := called }.calls := by
    refine hlinked.congr fun k hk => ?_
    have hlt : k < ch.called.length := h.calls ▸ hk
    rw [calls_of_called (List.getElem?_eq_getElem hlt), calls_of_called]
    exact called_of_isPrefix hle (List.getElem?_eq_getElem hlt)
  exact {
    linked := ⟨invoked,executed,
      hcongr.consumer (hregular invoked executed) hstep (.quiet houtside)⟩
    calls := hcalls
    pending := hpending
    called := hcalled
    holds := fun c => (h.holds c).mono hle (fun _ _ k hk => hasks c _ k hk)
      fun _ _ k hk => hasks c _ k hk
    serves := fun c x hx => (h.serves c x hx).mono hle (fun _ _ k hk => hasks c _ k hk)
      fun _ _ _ k hk => hasks c _ k hk
    unowned := h.unowned
    callback := fun e he => by
      obtain ⟨⟨r,hr⟩,hbytes,b,hb,hreplies⟩ := h.callback e he
      refine ⟨⟨r,?_⟩,hbytes,b,called_of_isPrefix hle hb,hreplies⟩
      refine Rpc.RpcConsumer.step_invoking hlinked.held hstep ?_ hr
      rintro rfl
      rw [hcallback rfl] at he
      cases he }

/-- One of the requests gets the mutex. -/
theorem call (h : ch.Sound p connection) {k : ℕ} (hstep : ch.call k = some ch')
    (hfree : ch.consumer.streamValid ∨ ch.consumer.isRunning →
      ch.consumer.callbacks ch.consumer.requestId = none)
    (hsize : ∀ b ∈ ch.pending[k]?, b.bytes.length ≤ Proto3.maxSerializedSize) :
    ch'.Sound p connection := by
  obtain ⟨b,hb,hstep⟩ := Option.bind_eq_some_iff.mp hstep
  obtain ⟨consumer,hconsumer,hstep⟩ := Option.bind_eq_some_iff.mp hstep
  obtain rfl := Option.some.inj hstep
  have hpending := h.pending b (List.mem_of_getElem? hb)
  refine h.quiet hconsumer ⟨by simp,by simp⟩ (fun _ _ => regular rfl (fun _ => hfree) nofun) nofun
    (List.prefix_append _ _) ?_ (fun b' hb' => ?_) fun b' hb' => ?_
  · rw [List.length_append, ← h.calls]
    exact Rpc.RpcConsumer.step_calls hconsumer
  · exact h.pending b' (List.mem_of_mem_eraseIdx hb')
  · obtain hb' | hb' := List.mem_append.mp hb'
    · exact h.called b' hb'
    · obtain rfl := List.mem_singleton.mp hb'
      exact ⟨hpending,hsize _ hb⟩

omit [PeerWire] [Protobuf] in
theorem link_passes {consumer : Rpc.RpcConsumer} {lane : Lane}
    {callback : Option (ℕ × Bytes × Body)} {invoked : List (ℕ × SessionTask × Result Bytes)}
    {executed : List (ApplyTask × InvokeTask)} :
    Channel.link { ch.setCurrent lane with consumer := consumer, callback := callback } p connection
      invoked executed = { ch.link p connection invoked executed with
        consumer := consumer
        up := Function.update (ch.link p connection invoked executed).up ch.consumer.connection
          (lane.up.map Prod.fst)
        down := Function.update (ch.link p connection invoked executed).down ch.consumer.connection
          (lane.down.map Prod.fst) } := by
  have hup := Function.comp_update (fun lane : Lane => lane.up.map Prod.fst) ch.lane
    ch.consumer.connection lane
  have hdown := Function.comp_update (fun lane : Lane => lane.down.map Prod.fst) ch.lane
    ch.consumer.connection lane
  rw [link, setCurrent, link]
  congr 1

/-- An id under which something is on its way on the last connection is outstanding. -/
structure Busy (ch : Channel) (p : Process) (connection : ℕ → Option ℕ) : Prop where
  up : ∀ e ∈ ch.current.up, e.1.1.requestId ∈ ch.consumer.outstanding
  down : ∀ e ∈ ch.current.down, e.1.1.requestId ∈ ch.consumer.outstanding
  pending : ∀ x, connection x = some ch.consumer.connection →
    ∀ r ∈ p.pendingIds x, r ∈ ch.consumer.outstanding

theorem busy (h : ch.Sound p connection) (ha : ch.consumer.Awake) :
    Busy ch p connection := by
  obtain ⟨invoked,executed,hlinked⟩ := h.linked
  have hcurrent := hlinked.current ha
  constructor
  · intro e he
    exact Multiset.mem_coe.mp (Multiset.mem_of_le hcurrent.requests_le
      (Link.mem_requestIds (List.mem_map_of_mem he)))
  · intro e he
    exact (hcurrent.outstanding (List.mem_map_of_mem he)).1
  · intro x hx r hr
    exact Multiset.mem_coe.mp (Multiset.mem_of_le (hcurrent.pending_le hx) hr)

/-- The consumer writes to the last connection or reads from it. Under the ids that are on their
way it awaits nothing new. -/
theorem passes (h : ch.Sound p connection) {consumer : Rpc.RpcConsumer} {lane : Lane}
    {callback : Option (ℕ × Bytes × Body)} (htasks : lane.tasks = ch.current.tasks)
    (hreplying : lane.replying = ch.current.replying)
    (hlinked : ∃ invoked executed, (Channel.link { ch.setCurrent lane with
      consumer := consumer, callback := callback } p connection invoked executed).Linked ch.calls)
    (hcalls : consumer.calls = ch.consumer.calls)
    (hasks : ∀ c r, (c = ch.consumer.connection → ch.consumer.Awake →
      r ∈ ch.consumer.outstanding) → ∀ k, c = consumer.connection ∧ consumer.Awaits r k →
        ch.Asks c r k)
    (hholds : lane.Holds (fun r k => ch.consumer.connection = consumer.connection ∧
      consumer.Awaits r k) ch.called)
    (hcallback : ∀ e, callback = some e → (∃ r, consumer.reader = .invoking r) ∧
      e.2.1 = e.2.2.bytes ∧ ∃ b, ch.called[e.1]? = some b ∧ b.Replies e.2.2) :
    Sound { ch.setCurrent lane with consumer := consumer, callback := callback } p connection := by
  have hlane : ∀ c, (ch.lane c).tasks = ((ch.setCurrent lane).lane c).tasks ∧
      (ch.lane c).replying = ((ch.setCurrent lane).lane c).replying := by
    intro c
    rw [setCurrent]
    dsimp only
    by_cases hc : c = ch.consumer.connection
    · subst hc
      rw [Function.update_self]
      exact ⟨htasks.symm,hreplying.symm⟩
    · rw [Function.update_of_ne hc]
      exact ⟨rfl,rfl⟩
  exact {
    linked := hlinked
    calls := hcalls.trans h.calls
    pending := h.pending
    called := h.called
    holds := fun c => by
      change Lane.Holds (Function.update ch.lane ch.consumer.connection lane c)
        (fun r k => c = consumer.connection ∧ consumer.Awaits r k) ch.called
      by_cases hc : c = ch.consumer.connection
      · subst hc
        rw [Function.update_self]
        exact hholds
      · rw [Function.update_of_ne hc]
        exact (h.holds c).mono (List.prefix_refl _) (fun _ _ => hasks _ _ fun h => absurd h hc)
          fun _ _ => hasks _ _ fun h => absurd h hc
    serves := fun c x hx => by
      have hserves : Lane.Serves (ch.lane c) (fun r k => c = consumer.connection ∧
          consumer.Awaits r k) ch.called (p.session x) :=
        (h.serves c x hx).mono (List.prefix_refl _)
          (fun task ht => hasks _ _ fun hc ha => (h.busy ha).pending x (hc ▸ hx) _
            (Session.mem_held ht))
          fun frame origin hf => hasks _ _ fun hc ha => (h.busy ha).pending x (hc ▸ hx) _
            ((Process.Carries.pending p x).responding frame origin hf)
      obtain ⟨htasks,hreplying⟩ := hlane c
      exact ⟨htasks ▸ hserves.tasks,hreplying ▸ hserves.replying⟩
    unowned := fun c hc => by
      obtain ⟨htasks,hreplying⟩ := hlane c
      rw [← htasks, ← hreplying]
      exact h.unowned c hc
    callback := hcallback }

/-- A request is written. -/
theorem written (h : ch.Sound p connection) {consumer : Rpc.RpcConsumer} {k : ℕ}
    {requestId : UInt64} {b : Body} (hstep : ch.consumer.step (.written true) = some consumer)
    (hholder : ch.consumer.holder = some (.writing k requestId)) (hb : ch.called[k]? = some b) :
    Sound { ch.setCurrent { ch.current with
      up := ch.current.up ++ [(b.call.frame requestId,b)] } with consumer := consumer }
      p connection := by
  obtain ⟨invoked,executed,hlinked⟩ := h.linked
  obtain ⟨hconnection,hreader⟩ : consumer.connection = ch.consumer.connection ∧
      consumer.reader = ch.consumer.reader := by
    cases Rpc.RpcConsumer.steps_of_step hstep
    exact ⟨rfl,rfl⟩
  have hnew := Rpc.RpcConsumer.written_new hlinked.held hlinked.matched hholder hstep
  have hasks : ∀ r j, consumer.Awaits r j → ch.Asks ch.consumer.connection r j ∨
      r = requestId ∧ j = k ∧ ch.consumer.Awake := by
    intro r j hj
    obtain hj | hj := Rpc.RpcConsumer.written_awaits hlinked.matched hholder hstep hj
    · exact Or.inl ⟨rfl,hj⟩
    · exact Or.inr hj
  have hold : ∀ c r, (c = ch.consumer.connection → ch.consumer.Awake →
      r ∈ ch.consumer.outstanding) → ∀ j, c = consumer.connection ∧ consumer.Awaits r j →
        ch.Asks c r j := by
    rintro c r hout j ⟨rfl,hj⟩
    rw [hconnection] at hout ⊢
    obtain hj | ⟨rfl,-,ha⟩ := hasks r j hj
    · exact hj
    · exact absurd (hout rfl ha) (hnew ha)
  have hholds : Lane.Holds _ (fun r j => ch.consumer.connection = consumer.connection ∧
      consumer.Awaits r j) ch.called := (h.holds ch.consumer.connection).mono (List.prefix_refl _)
    (fun e he => hold _ _ fun _ ha => (h.busy ha).up e he)
    fun e he => hold _ _ fun _ ha => (h.busy ha).down e he
  refine h.passes rfl rfl ⟨invoked,executed,?_⟩ (Rpc.RpcConsumer.step_calls hstep) hold
    ⟨fun e he => ?_,hholds.down⟩ fun e he => ?_
  · have hregular : (ch.link p connection invoked executed).Regular ch.calls
        (.consumer (.written true)) := regular rfl (by simp) (by simp)
    have hframe : [(b.call.frame requestId,b)].map Prod.fst = [(ch.calls k).frame requestId] := by
      rw [calls_of_called hb]
      rfl
    have hdown : Function.update (ch.link p connection invoked executed).down
        ch.consumer.connection (ch.current.down.map Prod.fst) =
          (ch.link p connection invoked executed).down := Function.update_eq_self _ _
    rw [link_passes, List.map_append, hframe, hdown]
    exact hlinked.consumer hregular hstep (.sends hholder)
  · obtain he | he := List.mem_append.mp he
    · exact hholds.up e he
    · obtain rfl := List.mem_singleton.mp he
      refine ⟨h.called b (List.mem_of_getElem? hb),⟨requestId,rfl⟩,fun j hj => ?_⟩
      obtain ⟨-,ha,hout,-⟩ | ⟨-,rfl,-⟩ := hasks _ j hj.2
      · exact absurd hout (hnew ha)
      · exact hb
  · obtain ⟨⟨r,hr⟩,hbytes⟩ := h.callback e he
    exact ⟨⟨r,hreader.trans hr⟩,hbytes⟩

/-- A response arrives, and its callback is called with a reply to the request of its call. -/
theorem received (h : ch.Sound p connection) {consumer : Rpc.RpcConsumer}
    {frame : Rpc.ResponseFrame} {reply : Body} {rest : List (Rpc.ResponseFrame × Body)}
    (hstep : ch.consumer.step (.received (.ok frame)) = some consumer)
    (hdown : ch.current.down = (frame,reply)::rest) :
    Sound { ch.setCurrent { ch.current with down := rest } with
      consumer := consumer, callback := ch.callbackOf frame reply } p connection := by
  obtain ⟨invoked,executed,hlinked⟩ := h.linked
  have hreading : ch.consumer.reader = .reading := by
    cases Rpc.RpcConsumer.steps_of_step hstep with
    | unknown reading _ => exact reading
    | invokes reading _ => exact reading
  have ha : ch.consumer.Awake := ⟨by simp [hreading],by simp [hreading]⟩
  have hmem : (frame,reply) ∈ ch.current.down := hdown ▸ List.mem_cons_self
  have hout : frame.1.requestId ∈ ch.consumer.outstanding := (h.busy ha).down _ hmem
  obtain ⟨k,hk⟩ : ∃ k, ch.consumer.callbacks frame.1.requestId = some (some k) :=
    (hlinked.matched.outstanding ha _ hout).imp fun _ hk => hk.1
  obtain ⟨hbytes,hreplies⟩ := (h.holds _).down _ hmem
  have hasks : ∀ c r j, c = consumer.connection ∧ consumer.Awaits r j → ch.Asks c r j := by
    rintro c r j ⟨rfl,hj⟩
    obtain ⟨hj,hconnection⟩ :=
      Rpc.RpcConsumer.step_awaits hlinked.matched hstep (by simp) hj
    exact ⟨hconnection,hj⟩
  have hinvoking : consumer.reader = .invoking frame.1.requestId := by
    cases Rpc.RpcConsumer.steps_of_step hstep with
    | unknown _ absent => cases absent.symm.trans hk
    | invokes _ _ => rfl
  have hholds : Lane.Holds _ (fun r j => ch.consumer.connection = consumer.connection ∧
      consumer.Awaits r j) ch.called := (h.holds ch.consumer.connection).mono (List.prefix_refl _)
    (fun _ _ => hasks _ _) fun _ _ => hasks _ _
  rw [callbackOf, hk]
  refine h.passes rfl rfl ⟨invoked,executed,?_⟩ (Rpc.RpcConsumer.step_calls hstep)
    (fun c r _ => hasks c r)
    ⟨hholds.up,fun e he => hholds.down e (hdown ▸ List.mem_cons_of_mem _ he)⟩ fun e he => ?_
  · have hregular : (ch.link p connection invoked executed).Regular ch.calls
        (.consumer (.received (.ok frame))) := regular rfl (by simp) (by simp)
    have hup : Function.update (ch.link p connection invoked executed).up
        ch.consumer.connection (ch.current.up.map Prod.fst) =
          (ch.link p connection invoked executed).up := Function.update_eq_self _ _
    rw [link_passes, hup]
    exact hlinked.consumer hregular hstep (.receives (congrArg (List.map Prod.fst) hdown))
  · obtain rfl := Option.some.inj he
    exact ⟨⟨_,hinvoking⟩,hbytes,hreplies k ⟨rfl,ha,hout,hk⟩⟩

/-- The other steps of the consumer. -/
theorem consumer (h : ch.Sound p connection) {l : Rpc.RpcConsumer.Label}
    (hstep : ch.consumerStep l = some ch')
    (hfree : l = .connected true → ch.consumer.callbacks ch.consumer.requestId = none) :
    ch'.Sound p connection := by
  obtain ⟨consumer,hconsumer,hstep⟩ := Option.bind_eq_some_iff.mp hstep
  have hquiet : l ≠ .call → (l ≠ .written true ∧ ∀ frame, l ≠ .received (.ok frame)) →
      (l = .callbackReturned → ch.callback = none) →
      Sound { ch with consumer := consumer } p connection := by
    intro hcall houtside hcallback
    have hcalls : consumer.calls = ch.called.length := by
      rw [Rpc.RpcConsumer.step_calls hconsumer, ← h.calls]
      split
      · exact absurd rfl hcall
      · rfl
    exact h.quiet hconsumer houtside
      (fun _ _ => regular rfl (fun h => absurd h hcall) fun h => hfree h) hcallback
      (List.prefix_refl _) hcalls h.pending h.called
  split at hstep
  · cases hstep
  · split at hstep
    · rename_i call requestId hholder
      obtain ⟨b,hb,rfl⟩ := Option.map_eq_some_iff.mp hstep
      exact h.written hconsumer hholder hb
    · cases hstep
  · rename_i frame
    split at hstep
    · rename_i first reply rest hdown
      split_ifs at hstep with hfirst
      subst hfirst
      cases hstep
      exact h.received hconsumer hdown
    · cases hstep
  · split_ifs at hstep with hnone
    cases hstep
    exact hquiet (by simp) ⟨by simp,by simp⟩ fun _ => Option.isNone_iff_eq_none.mp hnone
  · rename_i hcall hwritten hreceived hreturned
    cases hstep
    exact hquiet hcall ⟨hwritten,hreceived⟩ fun h => absurd h hreturned

/-- The process takes a step outside of the sessions of the channel. -/
theorem foreign (h : ch.Sound p connection) {cfg : RaftConfig} {l : Process.Label}
    (hstep : p.step cfg l = some p')
    (houtside : ∀ x c, connection x = some c → ∀ action, l ≠ .session x action)
    (hwaiting : ∀ task ∈ p.waiting, connection task.sessionId = none) :
    ch.Sound p' connection := by
  obtain ⟨invoked,executed,hlinked⟩ := h.linked
  have hupdate : ∀ {y t}, connection y = none → p'.session = Function.update p.session y t →
      ∀ x c, connection x = some c → p'.session x = p.session x := by
    intro y t hy hsession x c hx
    rw [hsession, Function.update_of_ne]
    rintro rfl
    cases hy.symm.trans hx
  have hnone : ∀ {y action}, l = .session y action → connection y = none := by
    intro y action hl
    cases hy : connection y with
    | none => rfl
    | some c => exact absurd hl (houtside y c hy action)
  have hsession : ∀ x c, connection x = some c → p'.session x = p.session x := by
    cases Process.step_moves hstep with
    | quiet _ session _ _ _ => exact fun x _ _ => congrFun session x
    | acts _ _ session _ => exact hupdate (hnone rfl) session
    | replies _ _ _ session _ => exact hupdate (hnone rfl) session
    | handles _ _ _ _ session _ _ _ _ => exact hupdate (hnone rfl) session
    | @pushes task invokeTask _ hhanding session _ _ _ _ =>
      refine hupdate (hwaiting task ?_) session
      simp [Process.waiting, hhanding]
  have hquiet : ∀ x c, connection x = some c →
      Process.readBy l x = [] ∧ p.writtenBy l x = [] := by
    intro x c hx
    cases l with
    | session y action =>
      have hne : y ≠ x := fun hxy => houtside x c hx action (hxy ▸ rfl)
      refine ⟨?_,if_neg hne⟩
      cases action with
      | read frame => exact if_neg hne
      | _ => rfl
    | _ => exact ⟨rfl,rfl⟩
  exact { h with
    linked := ⟨_,_,hlinked.process
      (Link.Passes.quiet (s := ch.link p connection invoked executed) hstep hquiet)⟩
    serves := fun c x hx => by
      rw [hsession x c hx]
      exact h.serves c x hx }

/-- What a step on a session of the channel passes on its connections. -/
theorem acts_passes {cfg : RaftConfig} {x c : ℕ} {action : Action} {lane : Lane}
    {invoked : List (ℕ × SessionTask × Result Bytes)} {executed : List (ApplyTask × InvokeTask)}
    (hown : ∀ y c', connection y = some c' → connection x = some c' → y = x)
    (hx : connection x = some c) (hstep : p.step cfg (.session x action) = some p')
    (hread : (ch.lane c).up.map Prod.fst =
      Process.readBy (.session x action) x ++ lane.up.map Prod.fst)
    (hwritten : lane.down.map Prod.fst =
      (ch.lane c).down.map Prod.fst ++ p.writtenBy (.session x action) x) :
    (ch.link p connection invoked executed).Passes cfg (.session x action)
      (Channel.link { ch with lane := Function.update ch.lane c lane } p' connection
        (invoked ++ (p.invocation cfg (.session x action)).toList)
        (executed ++ p'.executed (.session x action))) := by
  have hother : ∀ {y c'}, connection y = some c' → y ≠ x → c' ≠ c := by
    rintro y c' hy hyx rfl
    exact hyx (hown y c' hy hx)
  have hsame : ∀ {y c'}, connection y = some c' → y = x → c' = c := by
    rintro y c' hy rfl
    exact Option.some.inj (hy.symm.trans hx)
  have hnone : ∀ {y}, y ≠ x → Process.readBy (.session x action) y = [] ∧
      p.writtenBy (.session x action) y = [] := by
    intro y hy
    refine ⟨?_,if_neg hy.symm⟩
    cases action with
    | read frame => exact if_neg hy.symm
    | _ => rfl
  exact {
    process := hstep
    consumer := rfl
    connection := rfl
    invoked := rfl
    executed := rfl
    up := fun y c' hy => by
      change (ch.lane c').up.map Prod.fst = _ ++ (Function.update ch.lane c lane c').up.map Prod.fst
      by_cases hyx : y = x
      · obtain rfl := hsame hy hyx
        rw [Function.update_self, hyx]
        exact hread
      · rw [Function.update_of_ne (hother hy hyx), (hnone hyx).1]
        rfl
    down := fun y c' hy => by
      change (Function.update ch.lane c lane c').down.map Prod.fst =
        (ch.lane c').down.map Prod.fst ++ p.writtenBy (.session x action) y
      by_cases hyx : y = x
      · obtain rfl := hsame hy hyx
        rw [Function.update_self, hyx]
        exact hwritten
      · rw [Function.update_of_ne (hother hy hyx), (hnone hyx).2]
        exact (List.append_nil _).symm
    others := fun c' hc' => by
      have hne : c' ≠ c := fun hcc => hc' x (hcc ▸ hx)
      constructor
      · exact congrArg (fun lane : Lane => lane.up.map Prod.fst) (Function.update_of_ne hne _ _)
      · exact congrArg (fun lane : Lane => lane.down.map Prod.fst)
          (Function.update_of_ne hne _ _) }

/-- One lane of the channel and the session that serves it change. -/
theorem relays (h : ch.Sound p connection) {x c : ℕ} {lane : Lane} (hx : connection x = some c)
    (hown : ∀ y c', connection y = some c' → connection x = some c' → y = x)
    (hlinked : ∃ invoked executed, (Channel.link
      { ch with lane := Function.update ch.lane c lane } p' connection invoked executed).Linked
        ch.calls)
    (hsession : ∀ y ≠ x, p'.session y = p.session y) (hholds : lane.Holds (ch.Asks c) ch.called)
    (hserves : lane.Serves (ch.Asks c) ch.called (p'.session x)) :
    Sound { ch with lane := Function.update ch.lane c lane } p' connection where
  linked := hlinked
  calls := h.calls
  pending := h.pending
  called := h.called
  holds c' := by
    change Lane.Holds (Function.update ch.lane c lane c') (ch.Asks c') ch.called
    by_cases hc : c' = c
    · subst hc
      rw [Function.update_self]
      exact hholds
    · rw [Function.update_of_ne hc]
      exact h.holds c'
  serves c' y hy := by
    change Lane.Serves (Function.update ch.lane c lane c') (ch.Asks c') ch.called _
    by_cases hyx : y = x
    · obtain rfl : c' = c := Option.some.inj ((hyx ▸ hy).symm.trans hx)
      rw [Function.update_self, hyx]
      exact hserves
    · have hc : c' ≠ c := fun hc => hyx (hown y c' hy (hc ▸ hx))
      rw [Function.update_of_ne hc, hsession y hyx]
      exact h.serves c' y hy
  unowned c' hc' := by
    have hne : c' ≠ c := fun hcc => hc' x (hcc ▸ hx)
    change (Function.update ch.lane c lane c').tasks = [] ∧
      (Function.update ch.lane c lane c').replying = none
    rw [Function.update_of_ne hne]
    exact h.unowned c' hc'
  callback := h.callback

/-- The process takes a step on a session of the channel. -/
theorem acts (h : ch.Sound p connection) {cfg : RaftConfig} {x c : ℕ} {action : Action}
    {lane : Lane} (hx : connection x = some c) (hstep : p.step cfg (.session x action) = some p')
    (hsession : ∀ y ≠ x, p'.session y = p.session y)
    (hread : (ch.lane c).up.map Prod.fst =
      Process.readBy (.session x action) x ++ lane.up.map Prod.fst)
    (hwritten : lane.down.map Prod.fst =
      (ch.lane c).down.map Prod.fst ++ p.writtenBy (.session x action) x)
    (hup : lane.up ⊆ (ch.lane c).up)
    (hdown : ∀ e ∈ lane.down, e ∈ (ch.lane c).down ∨ e.1.2 = e.2.bytes ∧
      ∀ k, ch.Asks c e.1.1.requestId k → ∃ b, ch.called[k]? = some b ∧ b.Replies e.2)
    (hserves : lane.Serves (ch.Asks c) ch.called (p'.session x)) :
    Sound { ch with lane := Function.update ch.lane c lane } p' connection := by
  obtain ⟨invoked,executed,hlinked⟩ := h.linked
  have hown : ∀ y c', connection y = some c' → connection x = some c' → y = x :=
    fun y c' => hlinked.own y x c'
  have hholds : lane.Holds (ch.Asks c) ch.called := by
    refine ⟨fun e he => (h.holds c).up e (hup he),fun e he => ?_⟩
    obtain he | he := hdown e he
    · exact (h.holds c).down e he
    · exact he
  exact h.relays hx hown
    ⟨_,_,hlinked.process (acts_passes hown hx hstep hread hwritten)⟩
    hsession hholds hserves

/-- The reader of a session of the channel reads a request. -/
theorem reads (h : ch.Sound p connection) {cfg : RaftConfig} {x c : ℕ}
    {frame : Rpc.RequestFrame} {lane : Lane} {events : List Event} (hx : connection x = some c)
    (hstep : p.step cfg (.session x (.read frame)) = some p')
    (hsession : ∀ y ≠ x, p'.session y = p.session y)
    (hstep' : (p.session x).step (.read frame) = some (p'.session x))
    (hlane : Deployment.laneStep (ch.lane c) (p.session x) (p'.session x) events (.read frame) =
      some lane) : Sound { ch with lane := Function.update ch.lane c lane } p' connection := by
  rw [Deployment.laneStep] at hlane
  split at hlane
  · rename_i first b rest hup
    split_ifs at hlane with hfirst
    obtain ⟨rfl,-⟩ := hfirst
    cases hlane
    have hmem : (first,b) ∈ (ch.lane c).up := hup ▸ List.mem_cons_self
    obtain ⟨hsendable,⟨r,hframe⟩,hasks⟩ := (h.holds c).up _ hmem
    obtain rfl : first = b.call.frame r := hframe
    refine h.acts hx hstep hsession ?_ ?_ (hup ▸ List.subset_cons_self _ _)
      (fun e he => Or.inl he) ((h.serves c x hx).read hstep' hsendable hasks)
    · rw [hup, Process.readBy, if_pos rfl]
      rfl
    · rw [Process.writtenBy, if_pos rfl]
      exact (List.append_nil _).symm
  · cases hlane

/-- The writer of a session of the channel has written a response, or its write failed. -/
theorem writes (h : ch.Sound p connection) {cfg : RaftConfig} {x c : ℕ} {ok : Bool}
    {lane : Lane} {events : List Event} (hx : connection x = some c)
    (hstep : p.step cfg (.session x (.written ok)) = some p')
    (hsession : ∀ y ≠ x, p'.session y = p.session y)
    (hstep' : (p.session x).step (.written ok) = some (p'.session x))
    (hlane : Deployment.laneStep (ch.lane c) (p.session x) (p'.session x) events (.written ok) =
      some lane) : Sound { ch with lane := Function.update ch.lane c lane } p' connection := by
  have hserves := h.serves c x hx
  obtain ⟨frame,origin,hwriter⟩ : ∃ frame origin,
      (p.session x).writer = .responding frame origin := by
    rw [Session.step] at hstep'
    split at hstep'
    · exact ⟨_,_,by assumption⟩
    · cases hstep'
  obtain ⟨reply,hreply,hbytes,hreplies⟩ := hserves.replying frame origin hwriter
  have hlane' : Deployment.written (ch.lane c) (p.session x) ok =
      if ok then [(frame,reply)] else [] := by
    rw [Deployment.written, hwriter, hreply]
  have hwritten : p.writtenBy (.session x (.written ok)) x = if ok then [frame] else [] := by
    rw [Process.writtenBy, if_pos rfl]
    cases ok with
    | false => rfl
    | true =>
      rw [Session.writtenBy, hwriter]
      rfl
  rw [Deployment.laneStep, hlane'] at hlane
  cases hlane
  refine h.acts hx hstep hsession rfl ?_ (List.Subset.refl _) (fun e he => ?_)
    (hserves.step hstep' (by simp) (fun hw => absurd rfl (hw ok)) rfl)
  · rw [hwritten, List.map_append]
    cases ok <;> rfl
  · refine (List.mem_append.mp he).imp_right fun he => ?_
    cases ok with
    | false => cases he
    | true =>
      obtain rfl := List.mem_singleton.mp he
      exact ⟨hbytes,hreplies⟩

/-- The reader or the writer of a session of the channel takes a step. -/
theorem moves (h : ch.Sound p connection) {cfg : RaftConfig} {x c : ℕ} {action : Action}
    {lane : Lane} {events : List Event} (hx : connection x = some c)
    (hstep : p.step cfg (.session x action) = some p') (haction : ∀ io, action ≠ .invoke io)
    (hlane : Deployment.laneStep (ch.lane c) (p.session x) (p'.session x) events action =
      some lane) : Sound { ch with lane := Function.update ch.lane c lane } p' connection := by
  obtain ⟨hsession,hstep'⟩ : (∀ y ≠ x, p'.session y = p.session y) ∧
      (p.session x).step action = some (p'.session x) := by
    cases Process.step_moves hstep with
    | quiet outside _ _ _ _ => exact absurd rfl (outside x action)
    | acts _ hsession session _ =>
      rw [session]
      exact ⟨fun y hy => Function.update_of_ne hy _ _,by rw [Function.update_self]; exact hsession⟩
    | replies _ _ _ _ _ => exact absurd rfl (haction _)
    | handles _ _ _ _ _ _ _ _ _ => exact absurd rfl (haction _)
  have hquiet : lane = ch.lane c → Process.readBy (.session x action) x = [] →
      (p.session x).writtenBy action = [] → (∀ frame, action ≠ .read frame) →
        Sound { ch with lane := Function.update ch.lane c lane } p' connection := by
    rintro rfl hread hwritten hnone
    refine h.acts hx hstep hsession ?_ ?_ (List.Subset.refl _) (fun e he => Or.inl he)
      ((h.serves c x hx).step hstep' hnone (fun _ => rfl) rfl)
    · rw [hread]
      rfl
    · rw [Process.writtenBy, if_pos rfl, hwritten]
      exact (List.append_nil _).symm
  cases action with
  | read frame => exact h.reads hx hstep hsession hstep' hlane
  | invoke io => exact absurd rfl (haction io)
  | written ok => exact h.writes hx hstep hsession hstep' hlane
  | _ =>
    cases hlane
    exact hquiet rfl rfl rfl (by simp)

/-- The function of a task of the channel is called. -/
theorem invokes (h : ch.Sound p connection) {cfg : RaftConfig} {io : DiskOutcome}
    {sender : MemberId} {x c : ℕ} {b reply : Body} {before : List Event} {lane : Lane}
    (hx : connection x = some c) (hstep : p.step cfg (.session x (.invoke io)) = some p')
    (hcalls : (ch.lane c).Calls cfg io sender x p p' b reply before)
    (hlane : Deployment.laneStep (ch.lane c) (p.session x) (p'.session x)
      (before ++ [.sent sender reply]) (.invoke io) = some lane) :
    Sound { ch with lane := Function.update ch.lane c lane } p' connection := by
  obtain ⟨⟨task,hwriter,-,hsession⟩,⟨rest,htasks⟩,-,hreplies,-⟩ := hcalls
  have hfinish : p'.session x =
      (p.session x).finish task.requestId (.ok reply.bytes) none := by
    rw [hsession, Function.update_self]
  have hreplyOf : Deployment.replyOf (before ++ [.sent sender reply]) = some reply := by
    rw [Deployment.replyOf, List.getLast?_concat]
  have hserves := (h.serves c x hx).finish hwriter htasks hreplies hfinish hreplyOf
  rw [Deployment.laneStep, htasks] at hlane
  cases hlane
  refine h.acts hx hstep (fun y hy => ?_) rfl ?_ (List.Subset.refl _) (fun e he => Or.inl he)
    hserves
  · rw [hsession, Function.update_of_ne hy]
  · rw [Process.writtenBy, if_pos rfl]
    exact (List.append_nil _).symm

/-- The provider accepts a connection of the channel. -/
theorem accept (h : ch.Sound p connection) {cfg : RaftConfig} {c : ℕ}
    (hstep : p.step cfg .accept = some p') (hle : c ≤ ch.consumer.connection)
    (hfree : ∀ x, connection x ≠ some c) :
    ch.Sound p' (Function.update connection p.sessionId (some c)) := by
  obtain ⟨invoked,executed,hlinked⟩ := h.linked
  have hopened : connection p.sessionId = none := hlinked.unopened_connection
  have hsession : p'.session = p.session := by
    cases hstep
    rfl
  exact { h with
    linked := ⟨invoked,executed,hlinked.accept hstep hle hfree⟩
    serves := fun c' x hx => by
      rw [hsession]
      by_cases hxs : x = p.sessionId
      · subst hxs
        rw [Function.update_self] at hx
        obtain rfl := Option.some.inj hx
        rw [show p.session p.sessionId = .new from hlinked.unopened _ le_rfl]
        exact .new (h.unowned c hfree).1
      · rw [Function.update_of_ne hxs] at hx
        exact h.serves c' x hx
    unowned := fun c' hc' => by
      refine h.unowned c' fun x hx => hc' x ?_
      rw [Function.update_of_ne, hx]
      rintro rfl
      cases hopened.symm.trans hx }

/-- Requests come to wait for their calls. -/
theorem pend (h : ch.Sound p connection) {requests : List Body}
    (hrequests : ∀ b ∈ requests, b.isReply = false) :
    Sound { ch with pending := ch.pending ++ requests } p connection :=
  { h with
    linked := h.linked
    holds := h.holds
    serves := h.serves
    pending := fun b hb => (List.mem_append.mp hb).elim (h.pending b) (hrequests b) }

/-- A callback has handled its response. -/
theorem handled (h : ch.Sound p connection) : Sound { ch with callback := none } p connection :=
  { h with
    linked := h.linked
    holds := h.holds
    serves := h.serves
    callback := fun _ he => nomatch he }

end Sound
end Sound
end Channel
end Foskv.Raft
