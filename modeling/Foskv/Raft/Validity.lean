import Foskv.Raft.Linearizability

/-! Where entries and commands come from: in every run, what the logs hold and what is applied was
asked for by a client. -/
namespace Foskv.Raft
open Generic

namespace RaftNode
variable [Protobuf] {cfg : RaftConfig} {n n' : RaftNode} {io : DiskOutcome} {events : List Event}

/-- A task is queued for what a client asks. -/
theorem step_queued {input : Input} (h : n.step cfg io input = some (n',events))
    {task : ApplyTask} {entry : LogEntry} (he : .queued task entry ∈ events) :
    ∃ method reqPayload, input = .client method reqPayload task.sessionId task.requestId ∧
      method.command reqPayload = some task.request := by
  have ho := (step_transition h).origin he
  cases ho with
  | @queued method reqPayload _ sessionId requestId request hrole hkept hlog =>
    refine ⟨method,reqPayload,rfl,?_⟩
    have hhandled := client_handled h
    cases hhandled with
    | unparsed _ | redirected _ _ | refused _ _ _ _ => simp at he
    | @queued request' _ hcommand _ _ _ _ =>
      rw [(mem_queueingEvents.mp he).1]
      exact hcommand

/-- What a log has after a step it had before, or it is an entry of the request or queued now. -/
theorem Transition.mem_entries {input : Input} (h : Transition cfg n input n' events)
    {e : LogEntry} (he : e ∈ n'.logs.entries) : e ∈ n.logs.entries ∨
      (∃ sender callback request live,
        input = .receive sender (.appendEntries callback request) live ∧ e ∈ request.entries) ∨
      ∃ task, .queued task e ∈ events := by
  have hlc := h.logChange
  cases hlc with
  | kept hlog _ => exact Or.inl (hlog ▸ he)
  | elected _ => exact Or.inl he
  | @received _ _ _ _ _ _ old hold _ _ hlog _ =>
    have hsub : old ⊆ n.logs.entries := by
      obtain ⟨-,-,rfl | ⟨-,-,rfl⟩⟩ := hold
      · exact List.Subset.refl _
      · exact List.take_subset _ _
    obtain hlog | hlog := hlog
    · exact Or.inl (hsub (hlog ▸ he))
    · rw [hlog] at he
      obtain he | he := List.mem_append.mp he
      · exact Or.inl (hsub he)
      · exact Or.inr (Or.inl ⟨_,_,_,_,rfl,he⟩)
  | queued _ _ _ hlog _ =>
    rw [hlog] at he
    obtain he | he := List.mem_append.mp he
    · exact Or.inl he
    · obtain rfl := List.mem_singleton.mp he
      exact Or.inr (Or.inr ⟨_,List.mem_cons_self⟩)

/-- A request carries entries of its sender's log. -/
theorem Transition.sent_entries {input : Input} (h : Transition cfg n input n' events)
    {receiver : MemberId} {callback : Callback} {request : AppendEntriesRequest}
    (he : .sent receiver (.appendEntries callback request) ∈ events) :
    request.entries ⊆ n.logs.entries ∨ request.entries ⊆ n'.logs.entries := by
  have ho := h.origin he
  cases ho with
  | @reissued _ nextIndex _ _ _ _ =>
    refine Or.inl fun e he => ?_
    obtain ⟨i,-,hi⟩ := List.mem_filterMap.mp he
    unfold RaftLog.entryAt at hi
    split_ifs at hi
    · cases hi
    · split at hi
      · cases hi
      · rename_i hget
        cases hi
        exact List.mem_of_getElem? hget
  | heartbeat _ _ _ => exact Or.inl (List.nil_subset _)
  | replicated _ _ _ _ hlog =>
    refine Or.inr fun e he => ?_
    rw [hlog]
    exact List.mem_append_right _ he

end RaftNode

namespace Cluster

/-- A client of the run asked the member for the operation, on its session under its id. -/
def Asked [Protobuf] (labels : List Label) (op : Operation) : Prop :=
  ∃ io method reqPayload,
    .client op.1 io method reqPayload op.2.sessionId op.2.requestId ∈ labels ∧
    method.command reqPayload = some op.2.request

/-- Entries, also those on their way, and what was applied go back to queued tasks. -/
structure Sourced [Protobuf] (s : Cluster) : Prop where
  command : ∀ {entry op}, Wrote s.history entry op →
    entry.command = Wire.serialize op.2.request
  logs : ∀ m, ∀ entry ∈ (s.node m).logs.entries, ∃ op, Wrote s.history entry op
  requests : ∀ p ∈ s.network, ∀ request ∈ p.body.appendRequest, ∀ entry ∈ request.entries,
    ∃ op, Wrote s.history entry op
  tasks : ∀ m, ∀ task ∈ (s.node m).stateMachine.tasks, ∃ entry, Wrote s.history entry (m,task)
  applied : ∀ {m i request}, (m,.applied i request) ∈ s.history →
    ∃ entry op, Wrote s.history entry op ∧ op.2.request = request
  replied : ∀ {m t task reply}, (m,.replied t task reply) ∈ s.history →
    (∃ entry, Wrote s.history entry (m,task)) ∧ reply.requestId = task.requestId

namespace Sourced
variable [Protobuf] {C : ClusterConfig} {s s' : Cluster}

theorem init (kv : MemberId → Storage) : Sourced (Cluster.init kv) where
  command h := by cases h
  logs m entry h := by cases h
  requests p hp := by cases hp
  tasks m task h := by cases h
  applied h := by cases h
  replied h := by cases h

theorem lose (hs : Sourced s) (h : Loses s s') : Sourced s' := by
  constructor
  · rw [h.history]
    exact hs.command
  · rw [h.node, h.history]
    exact hs.logs
  · intro p hp
    rw [h.history]
    exact hs.requests p (h.network.subset hp)
  · rw [h.node, h.history]
    exact hs.tasks
  · rw [h.history]
    exact hs.applied
  · rw [h.history]
    exact hs.replied

section Act
variable {l : Label} {m₀ : MemberId} {input : Input} {n' : RaftNode} {events : List Event}
  {rest : List Packet}

theorem logs_act (hs : Sourced s) (h : Acts C s l m₀ input n' events rest s') {entry : LogEntry}
    (he : entry ∈ n'.logs.entries) : ∃ op, Wrote s'.history entry op := by
  obtain he | ⟨sender,callback,request,live,hi,he⟩ | ⟨task,he⟩ := h.transition.mem_entries he
  · exact (hs.logs m₀ entry he).imp fun op hop => hop.mono h.history_subset
  · have hp := hs.requests _ (h.packet_mem hi) request
      (Body.mem_appendRequest.mpr ⟨callback,rfl⟩) entry he
    exact hp.imp fun op hop => hop.mono h.history_subset
  · exact ⟨(m₀,task),h.mem_history.mpr (Or.inr ⟨rfl,he⟩)⟩

theorem applied_act (hs : Sourced s) (h : Acts C s l m₀ input n' events rest s') {i : ℕ}
    {request : InternalRaftRequest} (he : .applied i request ∈ events)
    (hcommand : ∀ {entry op}, Wrote s'.history entry op →
      entry.command = Wire.serialize op.2.request) :
    ∃ entry op, Wrote s'.history entry op ∧ op.2.request = request := by
  have ho := h.origin he
  cases ho with
  | @read _ _ _ _ _ entries _ _ hread hmem =>
    obtain ⟨view,-,hview⟩ := hread
    obtain ⟨entry,-,hget,hparse⟩ := RaftNode.mem_appliedEvents_iff.mp hmem
    have hentry : entry ∈ n'.logs.entries := by
      unfold Span.read at hview
      split_ifs at hview
      obtain rfl := Option.some.inj hview
      exact List.drop_subset _ _ (List.take_subset _ _ (List.mem_of_getElem? hget))
    obtain ⟨op,hop⟩ := hs.logs_act h hentry
    rw [hcommand hop, Wire.parse_serialize] at hparse
    exact ⟨entry,op,hop,Option.some.inj hparse⟩
  | @applied _ _ _ done _ hdone =>
    obtain ⟨entry,hop⟩ := hs.tasks m₀ done.1 (RaftNode.mem_executed hdone).1
    exact ⟨entry,_,hop.mono h.history_subset,rfl⟩

theorem act (hs : Sourced s) (h : Acts C s l m₀ input n' events rest s') : Sourced s' := by
  have hnode : ∀ m, ∀ entry ∈ (s'.node m).logs.entries, ∃ op, Wrote s'.history entry op := by
    intro m entry he
    by_cases hm : m = m₀
    · subst hm
      rw [h.node_self] at he
      exact hs.logs_act h he
    · rw [h.node_ne hm] at he
      exact (hs.logs m entry he).imp fun op hop => hop.mono h.history_subset
  have hcommand : ∀ {entry op}, Wrote s'.history entry op →
      entry.command = Wire.serialize op.2.request := by
    intro entry op hop
    obtain hop | ⟨-,he⟩ := h.mem_history.mp hop
    · exact hs.command hop
    · have ho := h.origin he
      generalize op.2 = task at ho ⊢
      cases ho with
      | queued _ _ _ => rfl
  refine ⟨hcommand,hnode,?_,?_,?_,?_⟩
  · intro p hp request hreq entry he
    obtain hp | ⟨rfl,hsent⟩ := h.mem_network hp
    · exact (hs.requests p hp request hreq entry he).imp fun op hop =>
        hop.mono h.history_subset
    · obtain ⟨callback,hbody⟩ := Body.mem_appendRequest.mp hreq
      rw [hbody] at hsent
      obtain hsub | hsub := h.transition.sent_entries hsent
      · exact (hs.logs p.sender entry (hsub he)).imp fun op hop => hop.mono h.history_subset
      · exact hnode p.sender entry (by rw [h.node_self]; exact hsub he)
  · intro m task ht
    by_cases hm : m = m₀
    · subst hm
      rw [h.node_self] at ht
      obtain ht | ⟨entry,he⟩ := h.transition.progress.mem_tasks ht
      · exact (hs.tasks m task ht).imp fun entry hop => hop.mono h.history_subset
      · exact ⟨entry,h.mem_history.mpr (Or.inr ⟨rfl,he⟩)⟩
    · rw [h.node_ne hm] at ht
      exact (hs.tasks m task ht).imp fun entry hop => hop.mono h.history_subset
  · intro m i request he
    obtain he | ⟨rfl,he⟩ := h.mem_history.mp he
    · obtain ⟨entry,op,hop,heq⟩ := hs.applied he
      exact ⟨entry,op,hop.mono h.history_subset,heq⟩
    · exact hs.applied_act h he hcommand
  · intro m t task reply he
    obtain he | ⟨rfl,he⟩ := h.mem_history.mp he
    · obtain ⟨⟨entry,hop⟩,hid⟩ := hs.replied he
      exact ⟨⟨entry,hop.mono h.history_subset⟩,hid⟩
    · have ho := h.origin he
      cases ho with
      | @replied _ _ _ done _ hdone =>
        obtain ⟨entry,hop⟩ := hs.tasks m done.1 (RaftNode.mem_executed hdone).1
        obtain ⟨_,-,hreply⟩ := StateMachine.apply_replies hdone
        exact ⟨⟨entry,hop.mono h.history_subset⟩,by rw [hreply]⟩

end Act
end Sourced

/-- What the logs and the messages in flight hold, what is applied and what is replied goes back to
what clients asked for; a reply goes to the session of its request and carries its id. -/
structure NothingMadeUp [Protobuf] (labels : List Label) (s : Cluster) : Prop where
  logs : ∀ m, ∀ entry ∈ (s.node m).logs.entries, ∃ op, Asked labels op ∧
    entry.command = Wire.serialize op.2.request
  requests : ∀ p ∈ s.network, ∀ request ∈ p.body.appendRequest, ∀ entry ∈ request.entries,
    ∃ op, Asked labels op ∧ entry.command = Wire.serialize op.2.request
  applied : ∀ m i request, (m,.applied i request) ∈ s.history →
    ∃ op, Asked labels op ∧ op.2.request = request
  replied : ∀ m t task reply, (m,.replied t task reply) ∈ s.history →
    Asked labels (m,task) ∧ reply.requestId = task.requestId

section Runs
variable [Protobuf] {C : ClusterConfig} {s : Cluster} {kv : MemberId → Storage}
  {labels : List Label}

theorem Run.sourced {ok : Cluster → Label → Prop} (h : Cluster.Run C ok kv labels s) :
    Sourced s :=
  Run.invariant (.init kv) (fun hs hl => hs.lose hl) (fun _ hs _ ha => hs.act ha) h

/-- Every operation was asked for by a client. -/
theorem Run.asked {ok : Cluster → Label → Prop} (h : Cluster.Run C ok kv labels s) :
    ∀ {entry op}, Wrote s.history entry op → Asked labels op := by
  induction h with
  | nil =>
    intro entry op hop
    cases hop
  | @snoc labels s l s' before _ next ih =>
    have hold : ∀ {entry op}, Wrote s.history entry op → Asked (labels ++ [l]) op := by
      intro entry op hop
      obtain ⟨io,method,reqPayload,hmem,hcommand⟩ := ih hop
      exact ⟨io,method,reqPayload,List.mem_append_left _ hmem,hcommand⟩
    intro entry op hop
    obtain ⟨-,hl⟩ | ⟨m,io,input,n',events,rest,htaken,hn,ha⟩ := step_taken next
    · rw [hl.history] at hop
      exact hold hop
    · obtain hop | ⟨hm,he⟩ := ha.mem_history.mp hop
      · exact hold hop
      · obtain ⟨method,reqPayload,rfl,hcommand⟩ := RaftNode.step_queued hn he
        have hlabel : l = .client m io method reqPayload op.2.sessionId op.2.requestId := by
          cases l with
          | client m' io' method' reqPayload' sessionId requestId =>
            cases htaken
            rfl
          | deliver k io' live =>
            obtain ⟨p,-,heq⟩ := Option.map_eq_some_iff.mp htaken
            cases heq
          | _ => cases htaken
        rw [hlabel, ← hm]
        exact ⟨io,method,reqPayload,List.mem_append_right _ (List.mem_singleton_self _),hcommand⟩

/-- In any run at all, nothing is made up. -/
theorem nothing_made_up (h : Cluster.Run C anyStep kv labels s) : NothingMadeUp labels s := by
  have hs := Run.sourced h
  constructor
  · intro m entry he
    obtain ⟨op,hop⟩ := hs.logs m entry he
    exact ⟨op,Run.asked h hop,hs.command hop⟩
  · intro p hp request hrequest entry he
    obtain ⟨op,hop⟩ := hs.requests p hp request hrequest entry he
    exact ⟨op,Run.asked h hop,hs.command hop⟩
  · intro m i request he
    obtain ⟨entry,op,hop,heq⟩ := hs.applied he
    exact ⟨op,Run.asked h hop,heq⟩
  · intro m t task reply he
    obtain ⟨⟨entry,hop⟩,hid⟩ := hs.replied he
    exact ⟨Run.asked h hop,hid⟩

end Runs

section Trio
attribute [local instance] Proto3.protobuf

/-- The entry of leader 1 that was lost and the two that replaced it all go back to clients. -/
theorem nothing_made_up_trio : ∃ s, Cluster.Run trio anyStep (fun _ => Storage.empty)
    [.electionTimeout 1,delivery 0,delivery 1,putting 1 10,.electionTimeout 2,delivery 4,
      delivery 4,putting 2 20,putting 2 30,delivery 6,.electionTimeout 1,delivery 9,delivery 9,
      putting 1 40,delivery 9,.deliver 10 .ok [7]] s ∧
    (executedBy s.history 1).length = 2 ∧
    NothingMadeUp [.electionTimeout 1,delivery 0,delivery 1,putting 1 10,.electionTimeout 2,
      delivery 4,delivery 4,putting 2 20,putting 2 30,delivery 6,.electionTimeout 1,delivery 9,
      delivery 9,putting 1 40,delivery 9,.deliver 10 .ok [7]] s := by
  obtain ⟨s,hs,htwo⟩ : ∃ s, Cluster.Run trio anyStep (fun _ => Storage.empty)
      [.electionTimeout 1,delivery 0,delivery 1,putting 1 10,.electionTimeout 2,delivery 4,
        delivery 4,putting 2 20,putting 2 30,delivery 6,.electionTimeout 1,delivery 9,delivery 9,
        putting 1 40,delivery 9,.deliver 10 .ok [7]] s ∧ (executedBy s.history 1).length = 2 :=
    Generic.Run.of_check (Generic.accepted_of_forall (fun _ _ => trivial) _ _) (by decide)
  exact ⟨s,hs,htwo,nothing_made_up hs⟩

end Trio
end Cluster
end Foskv.Raft
