import Foskv.Raft.Channels

/-! Every step of a deployment keeps what holds of its channels. -/
namespace Foskv.Raft
namespace Process

/-- No function is called on a session but for clients. -/
def ServesClients (p : Process) (x : ℕ) : Prop :=
  ∀ task ∈ (p.session x).held, ∀ handler, task.invoke = .handler handler →
    ∃ method, handler = .kv method

theorem kv_of_invokeTask {frame : Rpc.RequestFrame} {task : SessionTask}
    (h : Rpc.invokeTask invokes frame = some task) (hkv : frame.1.serviceType = .kKv) :
    ∃ method, task.invoke = .handler (.kv method) := by
  have hne : Rpc.ServiceType.kKv ≠ .kRaft := by decide
  simp only [invokes, Rpc.InvokeMap.invokeTask_registerInvoke, hkv, hne, false_and, if_false,
    true_and] at h
  split_ifs at h
  · cases h
    exact ⟨_,rfl⟩
  · cases h
    exact ⟨_,rfl⟩
  · cases h
    exact ⟨_,rfl⟩
  · cases h

section Steps
variable [Protobuf] [PeerProtobuf] {cfg : RaftConfig} {p p' : Process} {l : Label}

/-- Only the functions that are called on a session queue tasks for it. -/
theorem step_waiting (h : p.step cfg l = some p') : ∀ task ∈ p'.waiting,
    task ∈ p.waiting ∨ ∃ io, l = .session task.sessionId (.invoke io) := by
  intro task htask
  cases step_moves h with
  | quiet _ _ _ waiting _ => exact Or.inl (waiting.subset htask)
  | acts _ _ _ rest | replies _ _ _ _ rest => exact Or.inl (rest.waiting ▸ htask)
  | handles _ _ _ hrun _ _ waiting _ _ =>
    refine (waiting task htask).imp_right fun hqueued => ?_
    obtain rfl := (mem_queued hrun hqueued).2.1
    exact ⟨_,rfl⟩
  | pushes _ _ _ waiting _ _ => exact Or.inl (waiting task htask)

/-- A session goes on serving clients as long as it reads nothing else. -/
theorem step_servesClients (h : p.step cfg l = some p') {x : ℕ} (hx : p.ServesClients x)
    (hread : ∀ frame, l = .session x (.read frame) → frame.1.serviceType = .kKv) :
    p'.ServesClients x := by
  -- the tasks of the session are those it has had, and functions of clients
  have hkeep : (∀ task ∈ (p'.session x).held, task ∈ (p.session x).held ∨
      ∀ handler, task.invoke = .handler handler → ∃ method, handler = .kv method) →
      p'.ServesClients x := by
    intro hheld task htask handler hinvoke
    obtain htask | hkv := hheld task htask
    · exact hx task htask handler hinvoke
    · exact hkv handler hinvoke
  have hupdate : ∀ {y t}, p'.session = Function.update p.session y t →
      (y = x → ∀ task ∈ t.held, task ∈ (p.session x).held ∨
        ∀ handler, task.invoke = .handler handler → ∃ method, handler = .kv method) →
      p'.ServesClients x := by
    intro y t hsession ht
    refine hkeep fun task htask => ?_
    rw [hsession] at htask
    by_cases hxy : y = x
    · subst hxy
      rw [Function.update_self] at htask
      exact ht rfl task htask
    · rw [Function.update_of_ne (Ne.symm hxy)] at htask
      exact Or.inl htask
  cases step_moves h with
  | quiet _ session _ _ _ => exact hkeep fun task htask => Or.inl (session ▸ htask)
  | @acts y action t _ _ hstep session _ =>
    refine hupdate session ?_
    rintro rfl task htask
    rw [Session.step_held hstep] at htask
    refine (List.mem_append.mp htask).imp_right fun htask handler hinvoke => ?_
    cases action with
    | read frame =>
      obtain ⟨method,hkv⟩ := kv_of_invokeTask (Option.mem_toList.mp htask) (hread frame rfl)
      exact ⟨method,Invoke.handler.inj (hinvoke.symm.trans hkv)⟩
    | _ => cases htask
  | replies _ hwriter _ session _ =>
    refine hupdate session ?_
    rintro rfl task htask
    rw [Session.held_finish hwriter] at htask
    exact Or.inl (List.mem_of_mem_tail htask)
  | handles _ hwriter _ _ session _ _ _ _ =>
    refine hupdate session ?_
    rintro rfl task htask
    rw [Session.held_finish hwriter] at htask
    exact Or.inl (List.mem_of_mem_tail htask)
  | @pushes task invokeTask _ _ session _ _ _ _ =>
    refine hupdate session ?_
    rintro rfl task' htask
    rw [Session.held, ← List.append_assoc] at htask
    refine (List.mem_append.mp htask).imp_right fun htask handler hinvoke => ?_
    obtain rfl := List.mem_singleton.mp htask
    cases hinvoke

end Steps
end Process

namespace Deployment

/-- The connections of a channel that have got a session. -/
def connection (d : Deployment) (i : MemberId × MemberId) (x : ℕ) : Option ℕ :=
  match d.owner i.2 x with
  | some (m,c) => if m = i.1 then some c else none
  | none => none

theorem connection_eq {d : Deployment} {i : MemberId × MemberId} {x c : ℕ} :
    d.connection i x = some c ↔ d.owner i.2 x = some (i.1,c) := by
  rw [connection]
  cases d.owner i.2 x with
  | none => simp
  | some o =>
    obtain ⟨m,c'⟩ := o
    by_cases hm : m = i.1 <;> simp [hm]

theorem connection_none {d : Deployment} {i : MemberId × MemberId} {x : ℕ}
    (h : d.owner i.2 x = none) : d.connection i x = none := by
  rw [connection, h]

section Assign
variable {d : Deployment} {m sender : MemberId} {p : Process} {c : ℕ}

theorem assign_owner {m' : MemberId} {x : ℕ} : (d.assign m p sender c).owner m' x =
    if m' = m ∧ x = (d.process m).sessionId then some (sender,c) else d.owner m' x := by
  rw [assign]
  by_cases hm : m' = m
  · subst hm
    simp [Function.update_apply]
  · simp [hm]

theorem assign_connection
    (hopened : ∀ i, i.2 = m → d.connection i (d.process m).sessionId = none)
    {i : MemberId × MemberId} : (d.assign m p sender c).connection i =
      if i = (sender,m) then
        Function.update (d.connection i) (d.process m).sessionId (some c)
      else d.connection i := by
  ext1 x
  apply Option.ext
  intro c'
  rw [connection_eq, assign_owner]
  split_ifs with hnew hi hi
  · subst hi
    rw [hnew.2, Function.update_self]
    simp
  · have hnone := hopened i hnew.1
    rw [← hnew.2] at hnone
    rw [hnone]
    simp only [Option.some.injEq, Prod.mk.injEq, reduceCtorEq, iff_false]
    rintro ⟨rfl,-⟩
    exact hi (Prod.ext rfl hnew.1)
  · subst hi
    rw [Function.update_of_ne (fun hx => hnew ⟨rfl,hx⟩), connection_eq]
  · rw [connection_eq]

end Assign

section Steps
variable [Protobuf] [PeerWire]

/-- What a step does. -/
inductive Steps (C : ClusterConfig) (d : Deployment) : Label → Deployment → Prop
  | unserved {m l p} (hm : m ∈ C.members) (hstep : (d.process m).step (C.cfg m) l = some p)
      (hcallback : ∀ io sender body, l ≠ .callback io sender body)
      (houtside : ∀ x action, l = .session x action → d.owner m x = none) :
      Steps C d (.process m l) (d.record m p (d.events C m l))
  | served {m x action p sender c lane} (hm : m ∈ C.members)
      (hstep : (d.process m).step (C.cfg m) (.session x action) = some p)
      (hx : d.owner m x = some (sender,c))
      (hlane : laneStep ((d.channel (sender,m)).lane c) ((d.process m).session x) (p.session x)
        (d.events C m (.session x action)) action = some lane) :
      Steps C d (.process m (.session x action)) ((d.setChannel (sender,m)
        { d.channel (sender,m) with
          lane := Function.update (d.channel (sender,m)).lane c lane }).record m p
            (d.events C m (.session x action)))
  | accepts {m m' c p} (hm : m' ∈ C.members)
      (hle : c ≤ (d.channel (m,m')).consumer.connection)
      (hfree : ∀ x ∈ List.range (d.process m').sessionId, d.owner m' x ≠ some (m,c))
      (hstep : (d.process m').step (C.cfg m') .accept = some p) :
      Steps C d (.accept m m' c) (d.assign m' p m c)
  | calls {m m' k ch} (hstep : (d.channel (m,m')).call k = some ch) :
      Steps C d (.call m m' k) (d.setChannel (m,m') ch)
  | consumes {m m' l ch} (hstep : (d.channel (m,m')).consumerStep l = some ch) :
      Steps C d (.consumer m m' l) (d.setChannel (m,m') ch)
  /-- The response of a callback cannot be parsed. -/
  | unread {m m' io call respPayload reply b}
      (hcallback : (d.channel (m,m')).callback = some (call,respPayload,reply))
      (hcalled : (d.channel (m,m')).called[call]? = some b)
      (hread : b.readReply respPayload = none) :
      Steps C d (.callback m m' io)
        (d.setChannel (m,m') { d.channel (m,m') with callback := none })
  | handled {m m' io call respPayload reply' b reply p n events}
      (hcallback : (d.channel (m,m')).callback = some (call,respPayload,reply'))
      (hcalled : (d.channel (m,m')).called[call]? = some b)
      (hread : b.readReply respPayload = some reply)
      (hstep : (d.process m).step (C.cfg m) (.callback io m' reply) = some p)
      (hnode : (d.process m).node.step (C.cfg m) io
        (.receive m' reply (List.range (d.process m).sessionId)) = some (n,events)) :
      Steps C d (.callback m m' io)
        ((d.setChannel (m,m') { d.channel (m,m') with callback := none }).record m p events)

theorem processStep_cases {C : ClusterConfig} {d d' : Deployment} {m : MemberId}
    {l : Process.Label} (hm : m ∈ C.members) (h : d.processStep C m l = some d') :
    Steps C d (.process m l) d' := by
  obtain ⟨p,hstep,h⟩ := Option.bind_eq_some_iff.mp h
  dsimp only at h
  split at h
  · cases h
  · rename_i x action
    split at h
    · rename_i hx
      cases h
      refine .unserved hm hstep (by simp) fun y action' hl => ?_
      obtain ⟨rfl,-⟩ := Process.Label.session.inj hl
      exact hx
    · rename_i sender c hx
      obtain ⟨lane,hlane,h⟩ := Option.bind_eq_some_iff.mp h
      cases h
      exact .served hm hstep hx hlane
  · rename_i hcallback hsession
    cases h
    exact .unserved hm hstep hcallback fun x action hl => absurd hl (hsession x action)

theorem callbackStep_cases {C : ClusterConfig} {d d' : Deployment} {m m' : MemberId}
    {io : DiskOutcome} (h : d.callbackStep C m m' io = some d') :
    Steps C d (.callback m m' io) d' := by
  obtain ⟨⟨call,respPayload,reply⟩,hcallback,h⟩ := Option.bind_eq_some_iff.mp h
  obtain ⟨b,hcalled,h⟩ := Option.bind_eq_some_iff.mp h
  dsimp only at h
  split at h
  · rename_i hread
    cases h
    exact .unread hcallback hcalled hread
  · rename_i reply' hread
    obtain ⟨p,hstep,h⟩ := Option.bind_eq_some_iff.mp h
    obtain ⟨⟨n,events⟩,hnode,h⟩ := Option.bind_eq_some_iff.mp h
    cases h
    exact .handled hcallback hcalled hread hstep hnode

theorem steps_of_step {C : ClusterConfig} {d d' : Deployment} {l : Label}
    (h : d.step C l = some d') : Steps C d l d' := by
  cases l with
  | process m l =>
    rw [step] at h
    split_ifs at h with hm
    exact processStep_cases hm h
  | accept m m' c =>
    rw [step] at h
    split_ifs at h with hm
    obtain ⟨p,hstep,rfl⟩ := Option.map_eq_some_iff.mp h
    exact .accepts hm.1 hm.2.2.1 hm.2.2.2 hstep
  | call m m' k =>
    obtain ⟨ch,hstep,rfl⟩ := Option.map_eq_some_iff.mp h
    exact .calls hstep
  | consumer m m' l =>
    obtain ⟨ch,hstep,rfl⟩ := Option.map_eq_some_iff.mp h
    exact .consumes hstep
  | callback m m' io => exact callbackStep_cases h

end Steps

section Sound
variable [Protobuf] [PeerWire]

/-- What holds of a deployment in every run. -/
structure Sound (d : Deployment) : Prop where
  channels : ∀ i, (d.channel i).Sound (d.process i.2) (d.connection i)
  waiting : ∀ m, ∀ task ∈ (d.process m).waiting, d.owner m task.sessionId = none
  outside : ∀ m x, d.owner m x = none → (d.process m).ServesClients x

namespace Sound
variable {C : ClusterConfig} {d d' : Deployment} {m : MemberId} {p : Process} {l : Process.Label}
  {events : List Event}

theorem init (kv : MemberId → Storage) : Sound (.init kv) where
  channels _ := .init rfl
  waiting _ _ htask := nomatch htask
  outside _ _ _ _ htask := nomatch htask

theorem setChannel (h : d.Sound) {i : MemberId × MemberId} {ch : Channel}
    (hch : ch.Sound (d.process i.2) (d.connection i)) : (d.setChannel i ch).Sound where
  channels j := by
    change Channel.Sound (Function.update d.channel i ch j) _ _
    by_cases hj : j = i
    · subst hj
      rw [Function.update_self]
      exact hch
    · rw [Function.update_of_ne hj]
      exact h.channels j
  waiting := h.waiting
  outside := h.outside

/-- The process of a member takes a step, after which the channels are sound. -/
theorem record (hchannels : ∀ i, (d.channel i).Sound (Function.update d.process m p i.2)
      (d.connection i))
    (hwaiting : ∀ m', ∀ task ∈ (Function.update d.process m p m').waiting,
      d.owner m' task.sessionId = none)
    (houtside : ∀ m' x, d.owner m' x = none → (Function.update d.process m p m').ServesClients x) :
    (d.record m p events).Sound where
  channels i := by
    change Channel.Sound (if i.1 = m then _ else _) _ _
    split_ifs
    · refine (hchannels i).pend fun b hb => ?_
      obtain ⟨event,-,hevent⟩ := List.mem_filterMap.mp hb
      split at hevent
      · split_ifs at hevent with hrequest
        cases hevent
        exact hrequest.2
      · cases hevent
    · exact hchannels i
  waiting := hwaiting
  outside := houtside

theorem update_waiting (h : d.Sound)
    (hwaiting : ∀ task ∈ p.waiting, d.owner m task.sessionId = none) (m' : MemberId) :
    ∀ task ∈ (Function.update d.process m p m').waiting, d.owner m' task.sessionId = none := by
  by_cases hm : m' = m
  · subst hm
    rw [Function.update_self]
    exact hwaiting
  · rw [Function.update_of_ne hm]
    exact h.waiting m'

theorem update_outside (h : d.Sound) (houtside : ∀ x, d.owner m x = none → p.ServesClients x)
    (m' : MemberId) (x : ℕ) (hx : d.owner m' x = none) :
    (Function.update d.process m p m').ServesClients x := by
  by_cases hm : m' = m
  · subst hm
    rw [Function.update_self]
    exact houtside x hx
  · rw [Function.update_of_ne hm]
    exact h.outside m' x hx

/-- The process of a member takes a step outside of the sessions of a channel. -/
theorem foreign (h : d.Sound) (hstep : (d.process m).step (C.cfg m) l = some p)
    (i : MemberId × MemberId)
    (houtside : ∀ x c, d.owner m x = some (i.1,c) → i.2 = m → ∀ action, l ≠ .session x action) :
    (d.channel i).Sound (Function.update d.process m p i.2) (d.connection i) := by
  by_cases hi : i.2 = m
  · subst hi
    rw [Function.update_self]
    refine (h.channels i).foreign hstep (fun x c hx => houtside x c (connection_eq.mp hx) rfl)
      fun task htask => connection_none (h.waiting _ task htask)
  · rw [Function.update_of_ne hi]
    exact h.channels i

/-- What the node is given when a function for another member is called. -/
theorem input_eq {io : DiskOutcome} {sender : MemberId} {x c : ℕ} {b reply : Body}
    {before : List Event} (hx : d.owner m x = some (sender,c))
    (hcalls : ((d.channel (sender,m)).lane c).Calls (C.cfg m) io sender x (d.process m) p b reply
      before) : d.input m (.session x (.invoke io)) = some (io,.receive sender b []) := by
  obtain ⟨⟨task,hwriter,hinvoke,-⟩,⟨rest,htasks⟩,-⟩ := hcalls
  have hserved : d.served m x = some (sender,b) := by
    rw [served, hx]
    change (((d.channel (sender,m)).lane c).tasks.head?).bind _ = _
    rw [htasks]
    rfl
  rw [input, hwriter]
  dsimp only
  rw [hinvoke, hserved]
  cases b <;> rfl

omit [PeerWire] in
theorem events_eq {io : DiskOutcome} {sender : MemberId} {x : ℕ} {b : Body}
    (hinput : d.input m (.session x (.invoke io)) = some (io,.receive sender b []))
    (hnode : (d.process m).node.step (C.cfg m) io (.receive sender b []) = some (p.node,events)) :
    d.events C m (.session x (.invoke io)) = events := by
  rw [Deployment.events, hinput]
  dsimp only
  rw [hnode]
  rfl

/-- A step of a process on a session that another member is connected to. -/
theorem served (h : d.Sound) {action : Action} {sender : MemberId} {x c : ℕ} {lane : Lane}
    (hstep : (d.process m).step (C.cfg m) (.session x action) = some p)
    (hx : d.owner m x = some (sender,c))
    (hlane : laneStep ((d.channel (sender,m)).lane c) ((d.process m).session x) (p.session x)
      (d.events C m (.session x action)) action = some lane) :
    ((d.setChannel (sender,m) { d.channel (sender,m) with
      lane := Function.update (d.channel (sender,m)).lane c lane }).record m p
        (d.events C m (.session x action))).Sound := by
  have hconnection : d.connection (sender,m) x = some c := connection_eq.mpr hx
  obtain ⟨hchannel,hwaiting⟩ : Channel.Sound { d.channel (sender,m) with
      lane := Function.update (d.channel (sender,m)).lane c lane } p (d.connection (sender,m)) ∧
      ∀ task ∈ p.waiting, task ∈ (d.process m).waiting := by
    by_cases haction : ∃ io, action = .invoke io
    · obtain ⟨io,rfl⟩ := haction
      obtain ⟨b,reply,before,hcalls⟩ :=
        ((h.channels (sender,m)).serves c x hconnection).calls hstep sender
      rw [events_eq (input_eq hx hcalls) hcalls.node] at hlane
      exact ⟨(h.channels (sender,m)).invokes hconnection hstep hcalls hlane,hcalls.waiting⟩
    · rw [not_exists] at haction
      refine ⟨(h.channels (sender,m)).moves hconnection hstep haction hlane,fun task htask => ?_⟩
      obtain htask | ⟨io,hl⟩ := Process.step_waiting hstep task htask
      · exact htask
      · exact absurd (Process.Label.session.inj hl).2 (haction io)
  refine record (fun i => ?_)
    (h.update_waiting fun task htask => h.waiting m task (hwaiting _ htask))
    (h.update_outside fun y hy => ?_)
  · change Channel.Sound (Function.update d.channel (sender,m) _ i)
      (Function.update d.process m p i.2) (d.connection i)
    by_cases hi : i = (sender,m)
    · subst hi
      rw [Function.update_self, Function.update_self]
      exact hchannel
    · rw [Function.update_of_ne hi]
      refine h.foreign hstep i fun y c' hy him action' hl => hi ?_
      obtain ⟨rfl,-⟩ := Process.Label.session.inj hl
      obtain ⟨hsender,-⟩ := Prod.ext_iff.mp (Option.some.inj (hy.symm.trans hx))
      exact Prod.ext hsender him
  · refine Process.step_servesClients hstep (h.outside m y hy) fun frame hl => ?_
    obtain ⟨rfl,-⟩ := Process.Label.session.inj hl
    cases hx.symm.trans hy

/-- Any other step of a process. -/
theorem unserved (h : d.Sound) (hstep : (d.process m).step (C.cfg m) l = some p)
    (houtside : ∀ x action, l = .session x action → d.owner m x = none)
    (hread : ∀ x frame, l = .session x (.read frame) → frame.1.serviceType = .kKv) :
    (d.record m p events).Sound := by
  refine record (fun i => ?_) (h.update_waiting fun task htask => ?_)
    (h.update_outside fun x hx => ?_)
  · refine h.foreign hstep i fun x c hx _ action hl => ?_
    cases hx.symm.trans (houtside x action hl)
  · obtain htask | ⟨io,hl⟩ := Process.step_waiting hstep task htask
    · exact h.waiting m task htask
    · exact houtside _ _ hl
  · exact Process.step_servesClients hstep (h.outside m x hx) fun frame hl => hread x frame hl

theorem unopened_connection (h : d.Sound) (i : MemberId × MemberId) (hi : i.2 = m) :
    d.connection i (d.process m).sessionId = none := by
  subst hi
  obtain ⟨_,_,hlinked⟩ := (h.channels i).linked
  exact hlinked.unopened_connection

/-- The provider of a member accepts a connection. -/
theorem accept (h : d.Sound) {sender : MemberId} {c : ℕ}
    (hle : c ≤ (d.channel (sender,m)).consumer.connection)
    (hfree : ∀ x ∈ List.range (d.process m).sessionId, d.owner m x ≠ some (sender,c))
    (hstep : (d.process m).step (C.cfg m) .accept = some p) :
    (d.assign m p sender c).Sound := by
  have hopened := h.unopened_connection (m := m)
  obtain ⟨invoked,executed,hlinked⟩ := (h.channels (sender,m)).linked
  refine ⟨fun i => ?_,fun m' => ?_,fun m' x hx => ?_⟩
  · change (d.channel i).Sound (Function.update d.process m p i.2) _
    rw [assign_connection hopened]
    split_ifs with hi
    · subst hi
      rw [Function.update_self]
      refine (h.channels (sender,m)).accept hstep hle fun x hx => ?_
      exact hfree x (List.mem_range.mpr (hlinked.opened x c hx).1) (connection_eq.mp hx)
    · exact h.foreign hstep i (by simp)
  · intro task htask
    have hwaiting : ∀ task ∈ p.waiting, task ∈ (d.process m).waiting := fun task htask =>
      (Process.step_waiting hstep task htask).resolve_right (by simp)
    rw [assign_owner, if_neg]
    · exact h.update_waiting (fun task htask => h.waiting m task (hwaiting task htask)) m' task
        htask
    · rintro ⟨rfl,hx⟩
      refine hlinked.accounted.waiting_ne (hlinked.unopened _ le_rfl) task (hwaiting task ?_) hx
      change task ∈ (Function.update d.process m' p m').waiting at htask
      rwa [Function.update_self] at htask
  · rw [assign_owner] at hx
    split_ifs at hx
    refine h.update_outside (fun y hy => ?_) m' x hx
    exact Process.step_servesClients hstep (h.outside m y hy) (by simp)

/-- A callback is done, and the node may have handled its response. -/
theorem handled (h : d.Sound) (m m' : MemberId) :
    (d.setChannel (m,m') { d.channel (m,m') with callback := none }).Sound :=
  h.setChannel (h.channels (m,m')).handled

theorem step (h : d.Sound) {l : Label} (hregular : d.Regular l) (hnext : d.step C l = some d') :
    d'.Sound := by
  cases steps_of_step hnext with
  | @unserved m l p hm hstep hcallback houtside =>
    refine h.unserved hstep houtside ?_
    rintro x frame rfl
    exact hregular (houtside x _ rfl)
  | served hm hstep hx hlane => exact h.served hstep hx hlane
  | accepts hm hle hfree hstep => exact h.accept hle hfree hstep
  | @calls m m' k ch hstep =>
    exact h.setChannel ((h.channels (m,m')).call hstep hregular.1 hregular.2)
  | @consumes m m' l ch hstep =>
    refine h.setChannel ((h.channels (m,m')).consumer hstep ?_)
    rintro rfl
    exact hregular rfl
  | unread hcallback hcalled hread => exact h.handled _ _
  | handled hcallback hcalled hread hstep hnode =>
    exact (h.handled _ _).unserved hstep (by simp) (by simp)

end Sound
end Sound
end Deployment
end Foskv.Raft
