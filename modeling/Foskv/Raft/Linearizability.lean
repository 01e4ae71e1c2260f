import Foskv.Generic.Linearizability
import Foskv.Raft.Operations

/-! What clients see of the cluster: the replies are those of one key-value store that executes
their requests one after the other. -/
namespace Foskv.Raft
open Generic

namespace StateMachine

/-- A task is executed on the store that the tasks before it have left. -/
theorem apply_replies {sm : StateMachine} {c : ℕ} {done : ApplyTask × InvokeTask}
    (h : done ∈ (sm.apply c).2) : ∃ before,
      before ++ [done.1] <+: sm.tasks.takeWhile (fun task => task.index ≤ c) ∧
      done.2 = ⟨done.1.requestId,
        (execute (replay (before.map ApplyTask.request) sm.st) done.1.request).2⟩ := by
  obtain ⟨st,tasks⟩ := sm
  change done ∈ (applyTasks c st tasks).2.2 at h
  induction tasks generalizing st with
  | nil => cases h
  | cons task tasks ih =>
    unfold applyTasks at h
    split_ifs at h with hle
    · rw [List.takeWhile_cons_of_pos (by simpa using hle)]
      obtain rfl | h := List.mem_cons.mp h
      · exact ⟨[],by simp,rfl⟩
      · obtain ⟨before,hpre,hreply⟩ := ih _ h
        refine ⟨task::before,List.cons_prefix_cons.mpr ⟨rfl,hpre⟩,?_⟩
        rw [hreply, execute_store]
        rfl
    · cases h

end StateMachine

/-- The response to a task on the replay of the log before its index. -/
theorem RaftNode.Replayed.reply [Protobuf] {kv : Storage} {n : RaftNode} (hr : n.Replayed kv)
    {response : AppendEntriesResponse} (hc : n.Covers response) (live : List ℕ)
    {done : ApplyTask × InvokeTask}
    (h : done ∈ (n.stateMachine.apply ((n.told response).commitMiddle live).1.commitIndex).2) :
    n.lastApplied < done.1.index ∧ done.2 = ⟨done.1.requestId,(StateMachine.execute
      (replay (commandsOf (n.logs.entries.take (done.1.index - 1))) kv) done.1.request).2⟩ := by
  obtain ⟨before,hpre,hreply⟩ := StateMachine.apply_replies h
  have hindexes := hr.executed hc live
  have hlogged : ∀ task ∈ before ++ [done.1], ∃ e, n.logs.entries[task.index - 1]? = some e ∧
      Wire.parse e.command = some task.request := fun task ht =>
    (hr.logged task ((List.takeWhile_sublist _).subset (hpre.subset ht))).2
  -- The tasks up to this one have the indexes after `last_applied_`.
  have hrange : (before ++ [done.1]).map ApplyTask.index =
      List.range' (n.lastApplied + 1) (before.length + 1) := by
    have hpre' := hpre.map ApplyTask.index
    rw [hindexes] at hpre'
    have hle := hpre'.length_le
    have htake := List.prefix_iff_eq_take.mp hpre'
    simp only [List.length_map, List.length_append, List.length_singleton,
      List.length_range'] at hle htake
    rw [htake, List.take_range'_of_length_ge hle]
  rw [List.range'_concat, List.map_append, List.map_singleton] at hrange
  obtain ⟨hbefore,hlast⟩ := List.append_inj' hrange rfl
  have hindex : done.1.index = n.lastApplied + 1 + before.length := by simpa using hlast
  have hcommands := commandsOf_tasks hbefore fun task ht =>
    hlogged task (List.mem_append_left _ ht)
  refine ⟨by omega,?_⟩
  rw [hreply, ← hcommands, hr.store, ← replay_append, ← commandsOf_append, ← List.take_add]
  congr 6
  omega

/-- What an event of member `m` shows of the operations. -/
def visible (m : MemberId) : Event → Option (Visible Operation InvokeTask)
  | .queued task _ => some (.call (m,task))
  | .replied _ task reply => some (.ret (m,task) reply)
  | _ => none

/-- The calls and returns of operations, in the order in which they happened. -/
def view (history : List (MemberId × Event)) : List (Visible Operation InvokeTask) :=
  history.filterMap fun x => visible x.1 x.2

/-- A store executes the request of an operation. -/
def serve (op : Operation) (st : Storage) : Storage × InvokeTask :=
  let run := StateMachine.execute st op.2.request
  (run.1,⟨op.2.requestId,run.2⟩)

theorem after_serve (kv : Storage) (ops : List Operation) :
    after serve kv ops = replay (ops.map fun op => op.2.request) kv := by
  rw [after, replay, List.foldl_map]
  congr 1
  funext st op
  exact StateMachine.execute_store st op.2.request

section Views
variable {history : List (MemberId × Event)} {m : MemberId} {events : List Event}

theorem view_append : view (history ++ events.map (m,·)) =
    view history ++ events.filterMap (visible m) := by
  rw [view, List.filterMap_append, List.filterMap_map]
  rfl

theorem call_mem_view {op : Operation} :
    .call op ∈ view history ↔ ∃ entry, Wrote history entry op := by
  simp only [view, List.mem_filterMap, Prod.exists, Wrote]
  constructor
  · rintro ⟨m,e,he,hv⟩
    cases e <;> cases hv
    exact ⟨_,he⟩
  · rintro ⟨entry,he⟩
    exact ⟨_,_,he,rfl⟩

end Views

namespace RaftNode

/-- What is replied to open sessions when the queue is applied up to an index. -/
def replies (n : RaftNode) (c : ℕ) (live : List ℕ) : List (ApplyTask × InvokeTask) :=
  (n.stateMachine.apply c).2.filter (·.1.sessionId ∈ live)

theorem mem_replies {n : RaftNode} {c : ℕ} {live : List ℕ} {done : ApplyTask × InvokeTask}
    (h : done ∈ n.replies c live) : done ∈ (n.stateMachine.apply c).2 := (List.mem_filter.mp h).1

/-- Each is for a task of its own. -/
theorem Replayed.replies_nodup [Protobuf] {kv : Storage} {n : RaftNode} (hr : n.Replayed kv)
    (c : ℕ) (live : List ℕ) : ((n.replies c live).map Prod.fst).Nodup := by
  have htasks : n.stateMachine.tasks.Nodup := .of_map _ (hr.sorted.imp fun h => h.ne)
  refine List.Nodup.sublist (List.filter_sublist.map Prod.fst) ?_
  rw [StateMachine.apply_executed]
  exact htasks.sublist (List.takeWhile_sublist _)

/-- A commit shows these replies. -/
theorem visible_commitMiddle (m : MemberId) (n : RaftNode) (live : List ℕ) :
    (n.commitMiddle live).2.filterMap (visible m) =
      (n.replies n.matchIndex.middle live).map fun done => .ret (m,done.1) done.2 := by
  have htask : ∀ done, (n.taskEvents live done).filterMap (visible m) =
      if done.1.sessionId ∈ live then [.ret (m,done.1) done.2] else [] := by
    intro done
    unfold taskEvents
    split_ifs <;> rfl
  simp only [commitMiddle, replies]
  induction (n.stateMachine.apply n.matchIndex.middle).2 with
  | nil => rfl
  | cons done run ih =>
    rw [List.map_cons, List.flatten_cons, List.filterMap_append, ih, htask, List.filter_cons]
    by_cases hlive : done.1.sessionId ∈ live
    · simp [hlive]
    · simp [hlive]

variable [Protobuf] {cfg : RaftConfig} {n n' : RaftNode} {input : Input} {events : List Event}

/-- Replies come from a commit only. -/
theorem Transition.replied (h : Transition cfg n input n' events) {t : ℕ} {task : ApplyTask}
    {reply : InvokeTask} (he : .replied t task reply ∈ events) :
    ∃ sender response live, input = .receive sender (.appendEntriesReply .appendEntries response)
      live ∧ n.Raises response ∧ n' = ((n.told response).commitMiddle live).1 ∧
      events = ((n.told response).commitMiddle live).2 := by
  obtain ⟨sender,response,live,rfl⟩ : ∃ sender response live,
      input = .receive sender (.appendEntriesReply .appendEntries response) live := by
    have ho := h.origin he
    cases ho with
    | replied _ _ => exact ⟨_,_,_,rfl⟩
  cases h with
  | idle hevents => obtain rfl | ⟨_,_,_,rfl⟩ := hevents <;> simp at he
  | lowered _ _ | appendRejected _ _ _ | appendKnown _ _ _ _ => simp at he
  | committed hterm hrole hsuccess hnew =>
    exact ⟨_,_,_,rfl,⟨hterm,hrole,hsuccess,hnew⟩,rfl,rfl⟩

/-- A step shows nothing, one call, or what a commit replies. -/
theorem Transition.visible_cases (h : Transition cfg n input n' events) (m : MemberId) :
    events.filterMap (visible m) = [] ∨
    (∃ task entry, .queued task entry ∈ events ∧
      events.filterMap (visible m) = [.call (m,task)]) ∨
    ∃ sender response live, input = .receive sender (.appendEntriesReply .appendEntries response)
      live ∧ n.Raises response ∧ n' = ((n.told response).commitMiddle live).1 ∧
      events.filterMap (visible m) =
        (n.replies n'.commitIndex live).map fun done => .ret (m,done.1) done.2 := by
  by_cases hreply : ∃ t task reply, .replied t task reply ∈ events
  · obtain ⟨t,task,reply,he⟩ := hreply
    obtain ⟨sender,response,live,hi,hraises,rfl,rfl⟩ := h.replied he
    exact Or.inr (Or.inr ⟨sender,response,live,hi,hraises,rfl,visible_commitMiddle m _ live⟩)
  · have hcalls : events.filterMap (visible m) =
        (enqueued events).map fun x => .call (m,x.1) := by
      clear h
      induction events with
      | nil => rfl
      | cons e es ih =>
        have htail := ih fun hr => hreply (by
          obtain ⟨t,task,reply,he⟩ := hr
          exact ⟨t,task,reply,List.mem_cons_of_mem _ he⟩)
        cases e with
        | replied t task reply => exact absurd ⟨t,task,reply,List.mem_cons_self⟩ hreply
        | queued task entry => exact congrArg (Visible.call (m,task) :: ·) htail
        | _ => exact htail
    obtain hnone | ⟨x,hone⟩ := h.progress.enqueued_cases
    · exact Or.inl (by rw [hcalls, hnone]; rfl)
    · refine Or.inr (Or.inl ⟨x.1,x.2,mem_enqueued.mp (by rw [hone]; simp),?_⟩)
      rw [hcalls, hone]
      rfl

end RaftNode

namespace Cluster

/-- A governed step in which a leader commits exactly what it has tasks for. -/
def Serving (C : ClusterConfig) (s : Cluster) (p : Packet) : Prop :=
  Governed C s p ∧ QueueCovers s p

instance (C : ClusterConfig) (s : Cluster) (p : Packet) : Decidable (Serving C s p) :=
  inferInstanceAs (Decidable (_ ∧ _))

theorem Serving.governed (C : ClusterConfig) (s : Cluster) (l : Label)
    (h : onDelivery (Serving C) s l) : onDelivery (Governed C) s l := h.mono fun _ _ h => h.1

/-- Where appends are exact nothing is cut. -/
theorem Serving.lossless (C : ClusterConfig) (s : Cluster) (l : Label)
    (h : onDelivery (Serving C) s l) : onDelivery Lossless s l := by
  refine h.mono fun s p h => ⟨fun request hreq hcut => ?_,h.2⟩
  obtain ⟨hne,hterm,-,hprev,hdiffer⟩ := hcut
  exact absurd (h.1.1.1.2 request hreq hne hterm hprev).2 hdiffer

/-- Every reply is that of a store that has executed what was decided before, and operations
called after it are not among these. -/
structure Answered (C : ClusterConfig) (kv : Storage) (s : Cluster) : Prop where
  wellFormed : WellFormed (view s.history)
  applied : ∀ {op reply}, .ret op reply ∈ view s.history →
    op.2.index ≤ (s.node op.1).lastApplied
  answered : ∀ {op reply}, .ret op reply ∈ view s.history →
    ∃ before, Decided C s (before ++ [op]) ∧ reply = answer serve kv before op
  later : ∀ {op reply op'}, [.ret op reply,.call op'].Sublist (view s.history) →
    ∃ ops, Decided C s ops ∧ op ∈ ops ∧ op' ∉ ops

namespace Answered
variable {C : ClusterConfig} {kv : Storage} {s s' : Cluster}

theorem init (C : ClusterConfig) (kv : Storage) :
    Answered C kv (Cluster.init fun _ => kv) where
  wellFormed := .nil
  applied h := by cases h
  answered h := by cases h
  later h := by cases h

theorem lose (hc : Answered C kv s) (h : Loses s s') : Answered C kv s' := by
  have hdec : ∀ {ops}, Decided C s ops → Decided C s' ops := fun hd =>
    hd.mono (by simp [h.history]) (by simp [Cluster.termLog, h.history])
  constructor
  · exact h.history ▸ hc.wellFormed
  · rw [h.history, h.node]
    exact hc.applied
  · intro op reply hret
    rw [h.history] at hret
    obtain ⟨before,hd,hr⟩ := hc.answered hret
    exact ⟨before,hdec hd,hr⟩
  · intro op reply op' hsub
    rw [h.history] at hsub
    obtain ⟨ops,hd,hmem⟩ := hc.later hsub
    exact ⟨ops,hdec hd,hmem⟩

section Act
variable [Protobuf] {l : Label} {m₀ : MemberId} {input : Input} {n' : RaftNode}
  {events : List Event} {rest : List Packet}

/-- `last_applied_` does not go back. -/
theorem lastApplied_le (hr : (s.node m₀).Replayed kv) (hfirst : (s.node m₀).logs.firstIndex = 1)
    (h : Acts C s l m₀ input n' events rest s') (hok : onDelivery QueueCovers s l)
    (hgrow : (s.node m₀).logs.entries <+: n'.logs.entries) :
    (s.node m₀).lastApplied ≤ n'.lastApplied := by
  have hprog := h.transition.progress
  cases hprog with
  | kept _ applied _ _ | queued _ _ applied _ _ _ _ => exact applied.ge
  | followed _ _ hcommit hview _ =>
    obtain ⟨happlied,hle,-⟩ := RaftNode.follows (h.transition.firstIndex.trans hfirst)
      hr.lastApplied (hr.commit_le.trans hgrow.length_le) hcommit hview
    rw [happlied, hr.lastApplied]
    exact hle
  | committed hraises =>
    have hcovers := hok.apply (h.packet rfl).1 _ rfl hraises
    exact (RaftNode.le_commitMiddle_iff _ _ _ []).mpr hcovers.1

/-- What a commit replies now is the answer of the store after the log before its index. -/
theorem answered_now (hr : (s.node m₀).Replayed kv) (hq : Queued s) (hq' : Queued s')
    (hw' : Written s') (hc' : Secured C s') (h : Acts C s l m₀ input n' events rest s')
    (hok : onDelivery QueueCovers s l) {sender : MemberId} {response : AppendEntriesResponse}
    {live : List ℕ}
    (hi : input = .receive sender (.appendEntriesReply .appendEntries response) live)
    (hraises : (s.node m₀).Raises response)
    (hn : n' = (((s.node m₀).told response).commitMiddle live).1)
    {done : ApplyTask × InvokeTask} (hdone : done ∈ (s.node m₀).replies n'.commitIndex live) :
    (s.node m₀).lastApplied < done.1.index ∧ done.1.index ≤ n'.lastApplied ∧ ∃ before,
      Decided C s' (before ++ [(m₀,done.1)]) ∧ done.2 = answer serve kv before (m₀,done.1) := by
  have hdone := (List.mem_filter.mp hdone).1
  have hcovers := hok.apply (h.packet hi).1 _ rfl hraises
  obtain ⟨htask,hle⟩ := RaftNode.mem_executed hdone
  obtain ⟨hlt,hreply⟩ := hr.reply hcovers live (hn ▸ hdone)
  have happlied : n'.lastApplied = n'.commitIndex := by
    rw [hn]
    rfl
  refine ⟨hlt,happlied ▸ hle,?_⟩
  have hlog : n'.logs.entries = (s.node m₀).logs.entries := by
    rw [hn]
    rfl
  obtain ⟨entry,hqueued⟩ := hq.tasks m₀ _ htask
  have hwrote : Wrote s'.history entry (m₀,done.1) := h.history_subset hqueued
  obtain ⟨hpos,hget,-⟩ := hq.logged hqueued
  obtain ⟨hi',-⟩ := List.getElem?_eq_some_iff.mp hget
  obtain ⟨k,hk⟩ : ∃ k, done.1.index = k + 1 := ⟨done.1.index - 1,by omega⟩
  rw [hk, Nat.add_sub_cancel] at hget hi' hreply
  -- The log up to the task's index is certified, and its last entry is that of the task.
  have hcert : Certified C s' ((s.node m₀).logs.entries.take (k + 1)) := by
    have hcommit := hc'.commit m₀
    rw [h.node_self, hlog] at hcommit
    exact hcommit.of_isPrefix (List.take_prefix_take_left (hk ▸ hle))
  have hsplit : (s.node m₀).logs.entries.take (k + 1) =
      (s.node m₀).logs.entries.take k ++ [entry] := by
    rw [List.take_add_one, hget]
    rfl
  rw [hsplit] at hcert
  obtain hnil | ⟨P,t,hP,hpre⟩ := id hcert
  · simp at hnil
  obtain ⟨before,hbefore⟩ := hw'.wrotes
    ((List.prefix_append _ _).trans (hpre.trans hP.written))
  refine ⟨before,⟨_,hcert,List.rel_append hbefore (.cons hwrote .nil)⟩,?_⟩
  rw [hreply, hbefore.commandsOf hq', ← after_serve]
  rfl

/-- Nothing is called or returned twice. -/
theorem wellFormed_act (hc : Answered C kv s) (hr : (s.node m₀).Replayed kv) (hq : Queued s)
    (hs : Electoral C s) (hm : Matched s) (h : Acts C s l m₀ input n' events rest s')
    (hok : onDelivery QueueCovers s l) : WellFormed (view s'.history) := by
  rw [h.history, view_append]
  obtain hnone | ⟨task,entry,he,hone⟩ | ⟨sender,response,live,hi,hraises,rfl,hrets⟩ :=
    h.transition.visible_cases m₀
  · rw [hnone, List.append_nil]
    exact hc.wellFormed
  · rw [hone]
    refine hc.wellFormed.call fun hcall => ?_
    obtain ⟨entry',hold⟩ := call_mem_view.mp hcall
    exact Written.fresh hq hs hm h he entry' hold
  · have hcovers := hok.apply (h.packet hi).1 _ rfl hraises
    rw [hrets]
    generalize hcommit : (((s.node m₀).told response).commitMiddle live).1.commitIndex = c
    have hnew : WellFormed (view s.history ++ (((s.node m₀).replies c live).map
        fun done => ((m₀,done.1),done.2)).map fun d => .ret d.1 d.2) := by
      refine hc.wellFormed.rets ?_ ?_ ?_
      · rw [List.map_map]
        have hnodup := (hr.replies_nodup c live).map (Prod.mk_right_injective m₀)
        rw [List.map_map] at hnodup
        exact hnodup
      · intro d hd
        obtain ⟨done,hdone,rfl⟩ := List.mem_map.mp hd
        obtain ⟨entry,he⟩ := hq.tasks m₀ _ (RaftNode.mem_executed (RaftNode.mem_replies hdone)).1
        exact call_mem_view.mpr ⟨entry,he⟩
      · intro d hd reply hold
        obtain ⟨done,hdone,rfl⟩ := List.mem_map.mp hd
        have hle := hc.applied hold
        have hlt := (hr.reply hcovers live (hcommit ▸ RaftNode.mem_replies hdone)).1
        dsimp only at hle
        omega
    rw [List.map_map] at hnew
    exact hnew

/-- What is seen after a step was seen before, or is called or replied now. -/
theorem ret_act (h : Acts C s l m₀ input n' events rest s') {op : Operation} {reply : InvokeTask}
    (hret : .ret op reply ∈ view s'.history) :
    .ret op reply ∈ view s.history ∨ ∃ sender response live,
      input = .receive sender (.appendEntriesReply .appendEntries response) live ∧
      (s.node m₀).Raises response ∧ n' = (((s.node m₀).told response).commitMiddle live).1 ∧
      op.1 = m₀ ∧ (op.2,reply) ∈ (s.node m₀).replies n'.commitIndex live := by
  rw [h.history, view_append] at hret
  obtain hret | hret := List.mem_append.mp hret
  · exact Or.inl hret
  · obtain hnone | ⟨task,entry,-,hone⟩ | ⟨sender,response,live,hi,hraises,hn,hrets⟩ :=
      h.transition.visible_cases m₀
    · simp [hnone] at hret
    · simp [hone] at hret
    · rw [hrets] at hret
      obtain ⟨done,hdone,heq⟩ := List.mem_map.mp hret
      cases heq
      exact Or.inr ⟨sender,response,live,hi,hraises,hn,rfl,hdone⟩

/-- A call after some return is old, or it is the one operation called now. -/
theorem call_act (h : Acts C s l m₀ input n' events rest s') {op op' : Operation}
    {reply : InvokeTask} (hsub : [.ret op reply,.call op'].Sublist (view s'.history)) :
    [.ret op reply,.call op'].Sublist (view s.history) ∨ .ret op reply ∈ view s.history ∧
      op'.1 = m₀ ∧ ∃ entry, .queued op'.2 entry ∈ events := by
  rw [h.history, view_append] at hsub
  obtain hsub | ⟨hret,hcall⟩ | hsub := pair_sublist_append hsub
  · exact Or.inl hsub
  · obtain ⟨e,he,hv⟩ := List.mem_filterMap.mp hcall
    cases e <;> cases hv
    exact Or.inr ⟨hret,rfl,_,he⟩
  · -- A step does not both reply and call.
    have hret := hsub.subset List.mem_cons_self
    have hcall := hsub.subset (List.mem_cons_of_mem _ List.mem_cons_self)
    obtain hnone | ⟨task,entry,-,hone⟩ | ⟨_,_,_,-,-,-,hrets⟩ := h.transition.visible_cases m₀
    · simp [hnone] at hret
    · simp [hone] at hret
    · simp [hrets] at hcall

theorem act (hc : Answered C kv s) (hr : (s.node m₀).Replayed kv) (hq : Queued s)
    (hq' : Queued s') (hw' : Written s') (hs : Electoral C s) (hm : Matched s)
    (hc' : Secured C s') (h : Acts C s l m₀ input n' events rest s')
    (hok : onDelivery QueueCovers s l) (hstep : LogStep s m₀ input n' s'.termLog) :
    Answered C kv s' := by
  have hdec : ∀ {ops}, Decided C s ops → Decided C s' ops := fun hd =>
    hd.mono h.history_subset hstep.termLog_grows
  constructor
  · exact hc.wellFormed_act hr hq hs hm h hok
  · intro op reply hret
    obtain hret | ⟨sender,response,live,hi,hraises,hn,hmember,hdone⟩ := ret_act h hret
    · refine (hc.applied hret).trans ?_
      by_cases hi : op.1 = m₀
      · rw [hi, h.node_self]
        exact lastApplied_le hr (hs.addressed.firstIndex m₀) h hok hstep.grows
      · rw [h.node_ne hi]
    · rw [hmember, h.node_self]
      exact (answered_now hr hq hq' hw' hc' h hok hi hraises hn hdone).2.1
  · intro op reply hret
    obtain hret | ⟨sender,response,live,hi,hraises,hn,rfl,hdone⟩ := ret_act h hret
    · obtain ⟨before,hd,hreply⟩ := hc.answered hret
      exact ⟨before,hdec hd,hreply⟩
    · exact (answered_now hr hq hq' hw' hc' h hok hi hraises hn hdone).2.2
  · intro op reply op' hsub
    obtain hsub | ⟨hret,rfl,entry,he⟩ := call_act h hsub
    · obtain ⟨ops,hd,hmem⟩ := hc.later hsub
      exact ⟨ops,hdec hd,hmem⟩
    · -- What was decided for the reply was called before the new operation.
      obtain ⟨before,hd,-⟩ := hc.answered hret
      refine ⟨_,hdec hd,by simp,fun hmem => ?_⟩
      obtain ⟨P,-,hops⟩ := hd
      obtain ⟨entry',hold⟩ := hops.call hmem
      exact Written.fresh hq hs hm h he entry' hold

end Act
end Answered

/-- Of two certified lists one continues the other. -/
theorem Certified.comparable {C : ClusterConfig} {s : Cluster} {P P' : List LogEntry}
    (hchain : ∀ {P P' t t'}, Committed C s P t → Committed C s P' t' → P <+: P' ∨ P' <+: P)
    (h : Certified C s P) (h' : Certified C s P') : P <+: P' ∨ P' <+: P := by
  obtain rfl | ⟨Q,t,hQ,hpre⟩ := h
  · exact Or.inl List.nil_prefix
  obtain rfl | ⟨Q',t',hQ',hpre'⟩ := h'
  · exact Or.inr List.nil_prefix
  obtain hle | hle := hchain hQ hQ'
  · exact List.prefix_or_prefix_of_prefix (hpre.trans hle) hpre'
  · exact List.prefix_or_prefix_of_prefix hpre (hpre'.trans hle)

section Runs
variable [Protobuf] {C : ClusterConfig} {s : Cluster} {kv : Storage} {labels : List Label}

theorem Run.answered
    (h : Cluster.Run C (onDelivery (Serving C)) (fun _ => kv) labels s) : Answered C kv s := by
  have hgov := Serving.governed C
  have hok : ∀ s l, onDelivery (Serving C) s l → onDelivery Orderly s l := fun s l hl =>
    Governed.orderly C s l (hgov s l hl)
  refine Run.invariant (.init C kv) (fun hc hl => hc.lose hl) ?_ h
  intro ls s l m input n' events rest s' hr hc hl ha
  have hq := Run.queued hok hr
  have hs := Run.electoral hr
  have hm := Run.matched hok hr
  obtain ⟨hstep,hm'⟩ := Run.logStep hok hr hl ha
  have hc' := (Run.secured (hr.mono hgov)).act hq hs hm hm' (Run.acknowledged_act hok hr hl ha) ha
    (Orderly.exactAppend _ _ (hok _ _ hl)) (onDelivery.mono (fun _ _ h => h.1.2.1) hl)
    (onDelivery.mono (fun _ _ h => h.1.2.2) hl) hstep
  exact hc.act (Run.replayed (hr.mono (Serving.lossless C)) m) hq (hq.act hs ha hstep.grows)
    ((Run.written hok hr).act hq hs hm ha) hs hm hc' ha
    (onDelivery.mono (fun _ _ h => h.2) hl) hstep

theorem Run.view_linearizable (h : Cluster.Run C (onDelivery (Serving C)) (fun _ => kv) labels s) :
    Linearizable serve kv (view s.history) := by
  have hgov := h.mono (Serving.governed C)
  have hok := Governed.orderly C
  have hc := Run.answered h
  have hw := Run.written hok hgov
  have hsafe : ElectionSafe s :=
    (Run.votesOnce (fun s l hl => Orderly.singleVote s l (hok s l hl)) hgov).electionSafe
      (Run.electoral hgov)
  have ha := Run.acknowledged hok hgov
  have hchain : ∀ {P P' t t'}, Committed C s P t → Committed C s P' t' → P <+: P' ∨ P' <+: P :=
    fun hP hP' =>
      (Run.elections (Governed.compared C) hgov).chosen_comparable (hP.chosen ha) (hP'.chosen ha)
  have hd : Decides serve kv (view s.history) (Decided C s) := by
    constructor
    · exact Decided.nil C s
    · rintro ops ops' ⟨P,hP,hops⟩ ⟨P',hP',hops'⟩
      obtain hpre | hpre := hP.comparable hchain hP'
      · exact Or.inl (hops.isPrefix hw hsafe hops' hpre)
      · exact Or.inr (hops'.isPrefix hw hsafe hops hpre)
    · exact fun hd => hd.nodup hw hsafe
    · rintro ops ⟨P,-,hops⟩ op hop
      exact call_mem_view.mpr (hops.call hop)
    · exact hc.answered
    · exact hc.later
  exact hd.linearizes hc.wellFormed

/-- Clients see one key-value store, in a run whose steps are governed and in which leaders
commit what they have tasks for. -/
theorem linearizable (h : Cluster.Run C (onDelivery (Serving C)) (fun _ => kv) labels s) :
    Linearizable serve kv (view s.history) := h.view_linearizable

end Runs

section Trio
attribute [local instance] Proto3.protobuf

/-- Member 1 confirms a put, and member 2, the next leader, answers a get with its value. -/
theorem linearizable_trio : ∃ s, Cluster.Run trio (onDelivery (Serving trio))
    (fun _ => Storage.empty) [.electionTimeout 1,delivery 0,delivery 1,putting 1 10,delivery 1,
      .deliver 2 .ok [7],.heartbeatTimeout 1,delivery 2,.electionTimeout 2,delivery 4,delivery 5,
      .client 2 .ok .get (Wire.serialize (⟨[1],∅⟩ : Kv.GetRequest)) 8 1,delivery 5,
      .deliver 6 .ok [8]] s ∧
      (2,Event.replied 2 ⟨2,8,1,.kvGet ⟨[1],∅⟩⟩ ⟨1,some (.get
        (produceRpcResponseHeader true .noError none) (some ⟨[1],[10]⟩))⟩) ∈ s.history ∧
      Linearizable serve Storage.empty (view s.history) := by
  obtain ⟨s,hs,hreply⟩ : ∃ s, Cluster.Run trio (onDelivery (Serving trio))
      (fun _ => Storage.empty) [.electionTimeout 1,delivery 0,delivery 1,putting 1 10,delivery 1,
        .deliver 2 .ok [7],.heartbeatTimeout 1,delivery 2,.electionTimeout 2,delivery 4,
        delivery 5,.client 2 .ok .get (Wire.serialize (⟨[1],∅⟩ : Kv.GetRequest)) 8 1,delivery 5,
        .deliver 6 .ok [8]] s ∧
      (2,Event.replied 2 ⟨2,8,1,.kvGet ⟨[1],∅⟩⟩ ⟨1,some (.get
        (produceRpcResponseHeader true .noError none) (some ⟨[1],[10]⟩))⟩) ∈ s.history :=
    Generic.Run.of_check (by decide) (by decide)
  exact ⟨s,hs,hreply,linearizable hs⟩

end Trio
end Cluster
end Foskv.Raft
