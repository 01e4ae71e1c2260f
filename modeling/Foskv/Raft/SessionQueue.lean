import Foskv.Common.SpscQueue
import Foskv.Raft.Sessions

/-! The reader, the writer and the replies of `apply` use a session's queue as its producers and
its consumer: what a process does to it is a run of the queue. -/
namespace Foskv.Raft
open SpscQueue

namespace Session

/-- The session is as its queue and the consumer of it are. -/
structure Shows (t : Session) (s : History SessionTask) : Prop where
  queue : s.queue = ⟨t.queue,t.isShutdown⟩
  waiting : s.waiting = true ↔ t.writer = .waiting

/-- The session is what a run of its queue has made of it. -/
def Queued (t : Session) : Prop :=
  ∃ labels s, Generic.Run History.step (fun _ _ => True) History.start labels s ∧ t.Shows s

section Steps
variable {t t' : Session}

theorem Queued.new : Session.new.Queued := ⟨[],_,.nil,rfl,by simp [Session.new, History.start]⟩

theorem Shows.items {s : History SessionTask} (h : t.Shows s) : s.queue.queue = t.queue :=
  congrArg SpscQueue.queue h.queue

theorem Shows.down {s : History SessionTask} (h : t.Shows s) :
    s.queue.isShutdown = t.isShutdown := congrArg SpscQueue.isShutdown h.queue

theorem Shows.idle {s : History SessionTask} (h : t.Shows s) (hwriter : t.writer = .idle) :
    s.waiting = false := by
  rw [← Bool.not_eq_true, h.waiting, hwriter]
  nofun

theorem Queued.next (h : t.Queued)
    (hstep : ∀ s, t.Shows s → ∃ l s', History.step s l = some s' ∧ t'.Shows s') : t'.Queued := by
  obtain ⟨labels,s,hrun,hshows⟩ := h
  obtain ⟨l,s',hs',hshows'⟩ := hstep s hshows
  exact ⟨labels ++ [l],s',hrun.snoc trivial hs',hshows'⟩

theorem Queued.congr (h : t.Queued) (queue : t'.queue = t.queue)
    (isShutdown : t'.isShutdown = t.isShutdown)
    (writer : t'.writer = .waiting ↔ t.writer = .waiting) : t'.Queued := by
  obtain ⟨labels,s,hrun,hqueue,hwaiting⟩ := h
  exact ⟨labels,s,hrun,by rw [hqueue, queue, isShutdown],hwaiting.trans writer.symm⟩

theorem Queued.push (h : t.Queued) (task : SessionTask) :
    Queued { t with queue := t.queue ++ [task] } := by
  refine h.next fun s hs => ⟨.push task,_,rfl,?_,hs.waiting⟩
  simp [SpscQueue.push, hs.queue]

/-- The consumer takes an item, having found it at once or waited for it. -/
theorem Queued.taken (h : t.Queued) {task : SessionTask} {queue : List SessionTask}
    (hqueue : t.queue = task :: queue)
    (hwriter : t.writer = .idle ∨ t.writer = .waiting ∧ t.isShutdown = false) :
    Queued { t with writer := .invoking task, queue := queue } := by
  refine h.next fun s hs => ?_
  have hq := hs.items.trans hqueue
  obtain hidle | ⟨hwait,hopen⟩ := hwriter
  · exact ⟨.pop,_,History.step_pop_cons (hs.idle hidle) hq,by simp [hs.down],
      by simp [hs.idle hidle]⟩
  · exact ⟨.wake,_,History.step_wake_cons (hs.waiting.mpr hwait) (hs.down.trans hopen) hq,
      by simp [hs.down],by simp⟩

theorem Queued.step (h : t.Queued) {action : Action} (hstep : t.step action = some t') :
    t'.Queued := by
  cases action with
  | read frame =>
    rw [Session.step] at hstep
    split_ifs at hstep
    cases hstep
    cases Rpc.invokeTask invokes frame with
    | none => exact h.congr (List.append_nil _) rfl .rfl
    | some task => exact (h.push task).congr rfl rfl .rfl
  | readFailed =>
    rw [Session.step] at hstep
    split_ifs at hstep
    cases hstep
    refine h.next fun s hs => ⟨.shutdown,_,rfl,?_,hs.waiting⟩
    simp [SpscQueue.shutdown, hs.queue]
  | readerClosed =>
    rw [Session.step] at hstep
    split_ifs at hstep
    cases hstep
    exact h.congr rfl rfl .rfl
  | pop =>
    simp only [Session.step] at hstep
    split at hstep
    · rename_i hwriter hqueue
      cases hstep
      refine h.next fun s hs => ?_
      exact ⟨.pop,_,History.step_pop_nil (hs.idle hwriter) (hs.items.trans hqueue),hs.queue,
        by simp⟩
    · rename_i task queue hwriter hqueue
      cases hstep
      exact h.taken hqueue (.inl hwriter)
    · rename_i hwriter
      split_ifs at hstep with hdown
      · cases hstep
        refine h.next fun s hs => ?_
        exact ⟨.wake,_,History.step_wake_shutdown (hs.waiting.mpr hwriter) (hs.down.trans hdown),
          hs.queue,by simp⟩
      · split at hstep
        · cases hstep
        · rename_i task queue hqueue
          cases hstep
          exact h.taken hqueue (.inr ⟨hwriter,by simpa using hdown⟩)
    · cases hstep
  | invoke io => cases hstep
  | written ok =>
    simp only [Session.step] at hstep
    split at hstep
    · rename_i frame origin hwriter
      split_ifs at hstep
      · cases hstep
        exact h.congr rfl rfl (by simp [hwriter])
      · cases hstep
        exact h.congr rfl rfl (by simp [hwriter])
    · cases hstep
  | writerClosed =>
    rw [Session.step] at hstep
    split_ifs at hstep with hwriter
    cases hstep
    exact h.congr rfl rfl (by simp [hwriter])

/-- The end of a round leaves the queue alone. -/
theorem Queued.finish (h : t.Queued) {task : SessionTask} (hwriter : t.writer = .invoking task)
    (requestId : UInt64) (result : Result Bytes) (origin : Option ApplyTask) :
    (t.finish requestId result origin).Queued := by
  refine h.congr rfl rfl ?_
  unfold Session.finish
  split <;> simp [hwriter]

end Steps
end Session

namespace Process

section Runs
variable [Protobuf] [PeerProtobuf] {cfg : RaftConfig} {n : RaftNode} {p p' : Process}

omit [Protobuf] [PeerProtobuf] in
theorem queued_update (h : ∀ x, (p.session x).Queued) {s : ℕ} {t : Session} (ht : t.Queued)
    (session : p'.session = Function.update p.session s t) (x : ℕ) : (p'.session x).Queued := by
  rw [session]
  by_cases hx : x = s
  · subst hx
    rwa [Function.update_self]
  · rw [Function.update_of_ne hx]
    exact h x

theorem invoke_queued (h : ∀ x, (p.session x).Queued) {s : ℕ} {io : DiskOutcome}
    (hinvoke : p.invoke cfg s io = some p') : ∀ x, (p'.session x).Queued := by
  unfold invoke at hinvoke
  split at hinvoke
  · rename_i task hwriter
    split at hinvoke
    · obtain ⟨response,-,hp'⟩ := Option.bind_eq_some_iff.mp hinvoke
      cases hp'
      exact queued_update h ((h s).finish hwriter _ _ _) rfl
    · split_ifs at hinvoke
      obtain ⟨⟨n',queued,result⟩,-,hp'⟩ := Option.bind_eq_some_iff.mp hinvoke
      cases hp'
      exact queued_update h ((h s).finish hwriter _ _ _) rfl
  · cases hinvoke

theorem step_queued (h : ∀ x, (p.session x).Queued) {l : Label}
    (hstep : p.step cfg l = some p') : ∀ x, (p'.session x).Queued := by
  cases l with
  | session s action =>
    simp only [step] at hstep
    split_ifs at hstep
    split at hstep
    · exact invoke_queued h hstep
    · obtain ⟨t,ht,hp'⟩ := Option.bind_eq_some_iff.mp hstep
      split_ifs at hp' <;> cases hp'
      · exact queued_update h ((h s).step ht) rfl
      · exact queued_update h ((h s).step ht) rfl
  | callback io sender body =>
    simp only [step] at hstep
    split_ifs at hstep
    obtain ⟨⟨n',events⟩,-,hp'⟩ := Option.bind_eq_some_iff.mp hstep
    cases hp'
    exact h
  | push =>
    simp only [step] at hstep
    split at hstep
    · cases hstep
      exact queued_update h ((h _).push _) rfl
    · cases hstep
  | sessionAt =>
    simp only [step] at hstep
    split at hstep <;> cases hstep
    exact h
  | accept => cases hstep; exact h
  | electionTimeout =>
    simp only [step] at hstep
    split_ifs at hstep
    cases hstep
    exact h
  | heartbeatTimeout =>
    simp only [step] at hstep
    split_ifs at hstep
    cases hstep
    exact h
  | shutdown => cases hstep; exact h

/-- In every run of a process each session's queue is in a state of a run of its own, so that what
holds over the runs of a queue holds of all of them. -/
theorem sessions_queued {labels : List Label} (h : Process.Run cfg n labels p) (s : ℕ) :
    (p.session s).Queued :=
  Generic.Run.invariant (P := fun p => ∀ x, (p.session x).Queued) (fun _ => .new)
    (fun _ hq _ hn => step_queued hq hn) h s

end Runs
end Process
end Foskv.Raft
