import Foskv.Raft.Logs
import Mathlib.Data.List.TakeWhile

/-! How a step moves the commit index, `last_applied_` and the state machine. -/
namespace Foskv.Raft
open Generic

/-- The tasks that are executed, with what the log has at their indexes. -/
def executions (events : List Event) : List (ApplyTask × Option LogEntry) :=
  events.filterMap fun
    | .executed task logged => some (task,logged)
    | _ => none

/-- The tasks that enter the queue, with the entries appended for them. -/
def enqueued (events : List Event) : List (ApplyTask × LogEntry) :=
  events.filterMap fun
    | .queued task entry => some (task,entry)
    | _ => none

section Records
variable {es es' : List Event}

@[simp] theorem executions_append : executions (es ++ es') = executions es ++ executions es' :=
  List.filterMap_append

@[simp] theorem enqueued_append : enqueued (es ++ es') = enqueued es ++ enqueued es' :=
  List.filterMap_append

theorem mem_enqueued {task : ApplyTask} {entry : LogEntry} :
    (task,entry) ∈ enqueued es ↔ .queued task entry ∈ es := by
  simp only [enqueued, List.mem_filterMap]
  constructor
  · rintro ⟨e,he,hq⟩
    cases e <;> simp_all
  · exact fun h => ⟨_,h,rfl⟩

/-- Nothing enters the queue and nothing leaves it. -/
def Unqueued (events : List Event) : Prop := executions events = [] ∧ enqueued events = []

theorem unqueued_of_forall (h : ∀ e ∈ es, (∃ receiver body, e = .sent receiver body) ∨
    (∃ index request, e = .applied index request)) : Unqueued es := by
  constructor <;>
  · refine List.filterMap_eq_nil_iff.mpr fun e he => ?_
    obtain ⟨r,b,rfl⟩ | ⟨i,r,rfl⟩ := h e he <;> rfl

theorem Unqueued.append (h : Unqueued es) (h' : Unqueued es') : Unqueued (es ++ es') :=
  ⟨by rw [executions_append, h.1, h'.1]; rfl,by rw [enqueued_append, h.2, h'.2]; rfl⟩

theorem Unqueued.cons_voted {term : ℕ} {candidate : MemberId} {log : List LogEntry}
    (h : Unqueued es) : Unqueued (.voted term candidate log :: es) := h

theorem unqueued_nil : Unqueued [] := ⟨rfl,rfl⟩

theorem unqueued_sent {receiver : MemberId} {body : Body} : Unqueued [.sent receiver body] :=
  ⟨rfl,rfl⟩

theorem unqueued_broadcast {cfg : RaftConfig} {body : Body} : Unqueued (cfg.broadcast body) := by
  refine unqueued_of_forall fun e he => ?_
  obtain ⟨r,-,-,rfl⟩ := mem_broadcast.mp he
  exact Or.inl ⟨r,body,rfl⟩

end Records

namespace RaftNode

/-- How a step moves the commit index, `last_applied_`, the store and the queue. -/
inductive Progress [Protobuf] (n : RaftNode) : Input → RaftNode → List Event → Prop
  | kept {input n' events} (commit : n'.commitIndex = n.commitIndex)
      (applied : n'.lastApplied = n.lastApplied) (machine : n'.stateMachine = n.stateMachine)
      (hnone : Unqueued events) : Progress n input n' events
  | queued {method reqPayload sessionId requestId request n' events} (hrole : n.role = .leader)
      (commit : n'.commitIndex = n.commitIndex) (applied : n'.lastApplied = n.lastApplied)
      (machine : n'.stateMachine = n.stateMachine.produceApplyTask
        ⟨n.logs.lastLogIndex + 1,sessionId,requestId,request⟩)
      (hlog : n'.logs.entries = n.logs.entries ++
        [⟨n.currentTerm,n.logs.lastLogIndex + 1,Wire.serialize request⟩])
      (hexecuted : executions events = [])
      (hqueued : enqueued events = [(⟨n.logs.lastLogIndex + 1,sessionId,requestId,request⟩,
        ⟨n.currentTerm,n.logs.lastLogIndex + 1,Wire.serialize request⟩)]) :
      Progress n (.client method reqPayload sessionId requestId) n' events
  | followed {sender callback request live n' events} (hterm : n.currentTerm ≤ request.term)
      (hlog : request.entries ≠ [] →
        ∃ old, n.Trimmed request old ∧ n'.logs.entries = old ++ request.entries)
      (hcommit : n'.commitIndex = n.commitIndex ∨ n.commitIndex < request.leaderCommit ∧
        n'.commitIndex = min n'.logs.lastLogIndex request.leaderCommit)
      (hview : ((∃ e, n'.logs.entriesView (n.lastApplied + 1) n'.commitIndex = .error e) ∧
          n'.lastApplied = n.lastApplied ∧ n'.stateMachine = n.stateMachine) ∨
        ∃ entries, n.Reads n' entries ∧ n'.lastApplied = n'.commitIndex ∧
          n'.stateMachine = n.stateMachine.applyEntries entries)
      (hnone : Unqueued events) :
      Progress n (.receive sender (.appendEntries callback request) live) n' events
  | committed {sender response live} (hraises : n.Raises response) :
      Progress n (.receive sender (.appendEntriesReply .appendEntries response) live)
        ((n.told response).commitMiddle live).1 ((n.told response).commitMiddle live).2

section
variable [Protobuf] {n n' : RaftNode} {events : List Event}

omit [Protobuf] in
theorem raiseCommit_commitIndex (n : RaftNode) (leaderCommit : ℕ) :
    (n.raiseCommit leaderCommit).commitIndex = n.commitIndex ∨ n.commitIndex < leaderCommit ∧
      (n.raiseCommit leaderCommit).commitIndex = min n.logs.lastLogIndex leaderCommit := by
  unfold raiseCommit
  split_ifs with h
  · exact Or.inr ⟨h,rfl⟩
  · exact Or.inl rfl

theorem Viewed.unqueued (h : n.Viewed n' events) : Unqueued events :=
  unqueued_of_forall fun _ he => Or.inr (h.mem_events he)

/-- What a view does to the state machine. -/
theorem Viewed.progress (h : n.Viewed n' events) :
    n'.logs = n.logs ∧ n'.commitIndex = n.commitIndex ∧
    (((∃ e, n'.logs.entriesView (n.lastApplied + 1) n'.commitIndex = .error e) ∧
        n'.lastApplied = n.lastApplied ∧ n'.stateMachine = n.stateMachine) ∨
      ∃ entries, n.Reads n' entries ∧ n'.lastApplied = n'.commitIndex ∧
        n'.stateMachine = n.stateMachine.applyEntries entries) := by
  cases h with
  | unchanged hview => exact ⟨rfl,rfl,Or.inl ⟨⟨_,hview⟩,rfl,rfl⟩⟩
  | applied hview hread => exact ⟨rfl,rfl,Or.inr ⟨_,⟨_,hview,hread⟩,rfl,rfl⟩⟩

/-- The same for a view that is read after raising the commit index. -/
theorem Viewed.raised {leaderCommit : ℕ} (h : (n.raiseCommit leaderCommit).Viewed n' events) :
    n'.logs = n.logs ∧ n'.commitIndex = (n.raiseCommit leaderCommit).commitIndex ∧
    (((∃ e, n'.logs.entriesView (n.lastApplied + 1) n'.commitIndex = .error e) ∧
        n'.lastApplied = n.lastApplied ∧ n'.stateMachine = n.stateMachine) ∨
      ∃ entries, n.Reads n' entries ∧ n'.lastApplied = n'.commitIndex ∧
        n'.stateMachine = n.stateMachine.applyEntries entries) := by
  obtain ⟨c,hc⟩ := raiseCommit_eq n leaderCommit
  rw [hc] at h ⊢
  exact h.progress

variable {cfg : RaftConfig} {input : Input}

theorem Transition.progress (h : Transition cfg n input n' events) :
    Progress n input n' events := by
  cases h with
  | idle hevents =>
    refine .kept rfl rfl rfl ?_
    obtain rfl | ⟨_,_,_,rfl⟩ := hevents <;> exact ⟨rfl,rfl⟩
  | election _ => exact .kept rfl rfl rfl unqueued_broadcast.cons_voted
  | heartbeat _ =>
    refine .kept rfl rfl rfl (.append (unqueued_of_forall fun e he => Or.inl ?_) unqueued_broadcast)
    obtain ⟨es,hes,he⟩ := List.mem_flatten.mp he
    obtain ⟨x,-,rfl⟩ := List.mem_map.mp hes
    obtain ⟨-,-,rfl⟩ := mem_reissue.mp he
    exact ⟨_,_,rfl⟩
  | voteStale _ => exact .kept rfl rfl rfl unqueued_sent
  | voteDenied hobs _ =>
    obtain ⟨r,v,vf,p,rfl⟩ := hobs.eq
    exact .kept rfl rfl rfl unqueued_sent
  | voteGranted hobs _ _ =>
    obtain ⟨r,v,vf,p,rfl⟩ := hobs.eq
    exact .kept rfl rfl rfl ⟨rfl,rfl⟩
  | appendStale _ => exact .kept rfl rfl rfl unqueued_sent
  | @heartbeatReceived _ _ _ request n₁ _ _ hobs hempty hview =>
    have hle := hobs.le.1
    obtain ⟨r,v,vf,p,rfl⟩ := hobs.eq
    obtain ⟨hlogs,hc,hsm⟩ := hview.raised
    refine .followed hle (absurd hempty) ?_ hsm (hview.unqueued.append unqueued_sent)
    rw [hc, hlogs]
    exact raiseCommit_commitIndex _ _
  | appendBeyond hobs _ _ =>
    obtain ⟨r,v,vf,p,rfl⟩ := hobs.eq
    exact .kept rfl rfl rfl unqueued_sent
  | appendFailed hobs hentries hprev hres =>
    obtain ⟨old,q,rfl,hold⟩ := hres.eq
    obtain ⟨r,v,vf,p,rfl⟩ := hobs.eq
    exact .kept rfl rfl rfl unqueued_sent
  | @appended _ _ _ request _ _ _ _ _ hobs hentries hprev hres hset =>
    have hle := hobs.le.1
    obtain ⟨old,q,rfl,hold⟩ := hres.eq
    obtain ⟨r,v,vf,p,rfl⟩ := hobs.eq
    cases hset with
    | left _ => exact .kept rfl rfl rfl unqueued_sent
    | raised hlt hview =>
      obtain ⟨hlogs,hc,hsm⟩ := hview.raised
      refine .followed hle (fun _ => ⟨old,⟨hle,hprev,hold⟩,?_⟩) ?_ hsm
        (hview.unqueued.append unqueued_sent)
      · rw [hlogs]
        rfl
      · rw [hc, hlogs]
        exact raiseCommit_commitIndex _ _
  | lowered _ _ => exact .kept rfl rfl rfl unqueued_nil
  | voteCounted _ _ _ _ => exact .kept rfl rfl rfl unqueued_nil
  | elected _ _ _ _ => exact .kept rfl rfl rfl ⟨rfl,rfl⟩
  | appendRejected _ _ _ => exact .kept rfl rfl rfl unqueued_nil
  | appendKnown _ _ _ _ => exact .kept rfl rfl rfl unqueued_nil
  | committed hterm hrole hsuccess hnew => exact .committed ⟨hterm,hrole,hsuccess,hnew⟩
  | queued hrole =>
    refine .queued hrole rfl rfl rfl rfl ?_ ?_
    · rw [List.cons_append]
      change executions (_ ++ _) = []
      rw [executions_append, unqueued_broadcast.1]
      rfl
    · rw [List.cons_append]
      change _ :: enqueued (_ ++ _) = _
      rw [enqueued_append, unqueued_broadcast.2]
      rfl

/-- A queued task was in the queue before the step or is queued by it. -/
theorem Progress.mem_tasks (h : Progress n input n' events) {task : ApplyTask}
    (ht : task ∈ n'.stateMachine.tasks) :
    task ∈ n.stateMachine.tasks ∨ ∃ entry, .queued task entry ∈ events := by
  cases h with
  | kept _ _ machine _ => exact Or.inl (machine ▸ ht)
  | queued _ _ _ machine _ _ hqueued =>
    rw [machine] at ht
    obtain ht | ht := List.mem_append.mp ht
    · exact Or.inl ht
    · obtain rfl := List.mem_singleton.mp ht
      exact Or.inr ⟨_,mem_enqueued.mp (hqueued.symm ▸ List.mem_singleton_self _)⟩
  | followed _ _ _ hview _ =>
    obtain ⟨-,-,machine⟩ | ⟨es,-,-,machine⟩ := hview
    · exact Or.inl (machine ▸ ht)
    · rw [machine] at ht
      exact Or.inl ht
  | committed _ =>
    change task ∈ (n.stateMachine.apply _).1.tasks at ht
    rw [StateMachine.apply_tasks] at ht
    exact Or.inl ((List.dropWhile_sublist _).subset ht)

end

section Views
variable {n n' : RaftNode} (hfirst : n'.logs.firstIndex = 1)
include hfirst

/-- The span that is read, as long as nothing wraps around. -/
theorem Reads.eq {entries : List LogEntry} (h : n.Reads n' entries)
    (hle : n.lastApplied ≤ n'.commitIndex) :
    n'.commitIndex ≤ n'.logs.entries.length ∧
      entries = (n'.logs.entries.drop n.lastApplied).take (n'.commitIndex - n.lastApplied) := by
  obtain ⟨view,hview,hread⟩ := h
  unfold RaftLog.entriesView at hview
  rw [RaftLog.lastLogIndex_eq hfirst, hfirst] at hview
  split_ifs at hview with hr
  obtain rfl := Except.ok.inj hview
  have hcount : sub64 (n'.commitIndex + 1) (n.lastApplied + 1) =
      n'.commitIndex - n.lastApplied := by
    rw [sub64, if_pos (by omega)]
    omega
  rw [Span.read, hcount, Nat.add_sub_cancel] at hread
  split_ifs at hread
  exact ⟨by omega,(Option.some.inj hread).symm⟩

/-- A view is refused only if there is nothing to apply or the log is too short. -/
theorem entriesView_error {e : Error}
    (h : n'.logs.entriesView (n.lastApplied + 1) n'.commitIndex = .error e) :
    n'.logs.entries.length ≤ n.lastApplied ∨ n'.logs.entries.length < n'.commitIndex := by
  unfold RaftLog.entriesView at h
  rw [RaftLog.lastLogIndex_eq hfirst, hfirst] at h
  split_ifs at h with hr
  omega

/-- Where `last_applied_` has kept up with a commit index inside the log, it keeps up with a
commit index taken over from a leader, and exactly the entries in between are applied. -/
theorem follows [Protobuf] {leaderCommit : ℕ} (hla : n.lastApplied = n.commitIndex)
    (hlen : n.commitIndex ≤ n'.logs.entries.length)
    (hcommit : n'.commitIndex = n.commitIndex ∨ n.commitIndex < leaderCommit ∧
      n'.commitIndex = min n'.logs.lastLogIndex leaderCommit)
    (hview : ((∃ e, n'.logs.entriesView (n.lastApplied + 1) n'.commitIndex = .error e) ∧
        n'.lastApplied = n.lastApplied ∧ n'.stateMachine = n.stateMachine) ∨
      ∃ entries, n.Reads n' entries ∧ n'.lastApplied = n'.commitIndex ∧
        n'.stateMachine = n.stateMachine.applyEntries entries) :
    n'.lastApplied = n'.commitIndex ∧ n.commitIndex ≤ n'.commitIndex ∧
      n'.commitIndex ≤ n'.logs.entries.length ∧
      n'.stateMachine = n.stateMachine.applyEntries
        ((n'.logs.entries.drop n.lastApplied).take (n'.lastApplied - n.lastApplied)) := by
  rw [RaftLog.lastLogIndex_eq hfirst] at hcommit
  have hle : n.commitIndex ≤ n'.commitIndex ∧ n'.commitIndex ≤ n'.logs.entries.length := by
    omega
  obtain ⟨⟨e,herror⟩,applied,machine⟩ | ⟨entries,hread,applied,machine⟩ := hview
  · have hshort := entriesView_error hfirst herror
    refine ⟨by omega,hle.1,hle.2,?_⟩
    rw [applied, Nat.sub_self, List.take_zero, machine]
    rfl
  · obtain ⟨-,rfl⟩ := hread.eq hfirst (hla ▸ hle.1)
    rw [applied]
    exact ⟨rfl,hle.1,hle.2,machine⟩

end Views

theorem mem_appliedEvents_iff [Protobuf] {start i : ℕ} {entries : List LogEntry}
    {request : InternalRaftRequest} : .applied i request ∈ appliedEvents start entries ↔
      ∃ e, start ≤ i ∧ entries[i - start]? = some e ∧ Wire.parse e.command = some request := by
  simp only [appliedEvents, List.mem_filterMap, Option.map_eq_some_iff, Event.applied.injEq]
  constructor
  · rintro ⟨⟨e,j⟩,hmem,r,hr,rfl,rfl⟩
    obtain ⟨hle,he⟩ := List.mk_mem_zipIdx_iff_le_and_getElem?_sub.mp hmem
    exact ⟨e,hle,he,hr⟩
  · rintro ⟨e,hle,he,hr⟩
    exact ⟨(e,i),List.mk_mem_zipIdx_iff_le_and_getElem?_sub.mpr ⟨hle,he⟩,request,hr,rfl,rfl⟩

/-- The members whose value is at least `w` are as many as such values. -/
theorem exists_members_reaching (M : IndexMap) (w : ℕ) :
    ∃ K : Finset MemberId, K.card = M.values.countP (w ≤ ·) ∧
      ∀ m ∈ K, ∃ v, ⟨m,v⟩ ∈ M.entries ∧ w ≤ v := by
  let reaching := M.entries.filter fun e => w ≤ e.2
  have hnodup : (reaching.map Sigma.fst).Nodup :=
    (List.filter_sublist.map Sigma.fst).nodup M.nodupKeys
  refine ⟨(reaching.map Sigma.fst).toFinset,?_,?_⟩
  · rw [List.toFinset_card_of_nodup hnodup, List.length_map, IndexMap.values, List.countP_map,
      List.countP_eq_length_filter]
    rfl
  · intro m hm
    obtain ⟨⟨k,v⟩,he,rfl⟩ := List.mem_map.mp (List.mem_toFinset.mp hm)
    obtain ⟨he,hv⟩ := List.mem_filter.mp he
    exact ⟨v,he,of_decide_eq_true hv⟩

section Committing
variable {n : RaftNode}

theorem matched_values_ne_nil (m : MemberId) (v : ℕ) :
    (n.matched m v).matchIndex.values ≠ [] := by
  simp [matched, IndexMap.values, AList.entries_insert]

/-- What the commit index of a leader becomes. -/
theorem le_commitMiddle_iff (m : MemberId) (v w : ℕ) (live : List ℕ) :
    w ≤ ((n.matched m v).commitMiddle live).1.commitIndex ↔
      HalfReached (n.matched m v).matchIndex.values w :=
  le_middle_iff (n.matched_values_ne_nil m v) w

/-- It is one of the values of `match_index_`. -/
theorem commitMiddle_mem_values (m : MemberId) (v : ℕ) (live : List ℕ) :
    ((n.matched m v).commitMiddle live).1.commitIndex ∈ (n.matched m v).matchIndex.values :=
  middle_mem (n.matched_values_ne_nil m v)

/-- The tasks a commit executes are those in front of the queue up to the commit index. -/
theorem mem_executed {sm : StateMachine} {c : ℕ} {done : ApplyTask × InvokeTask}
    (h : done ∈ (sm.apply c).2) : done.1 ∈ sm.tasks ∧ done.1.index ≤ c := by
  have hmem := List.mem_map_of_mem (f := Prod.fst) h
  rw [StateMachine.apply_executed] at hmem
  exact ⟨(List.takeWhile_sublist _).subset hmem,by simpa using List.mem_takeWhile_imp hmem⟩

end Committing
end RaftNode
end Foskv.Raft
