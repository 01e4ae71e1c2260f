import Foskv.Generic.LastWriter
import Foskv.Raft.AppendReference
import Foskv.Raft.Replay

/-! A node that is started again: the key-value store is what the crashed process has left, the log
is applied again from its first entry. -/
namespace Foskv.Raft
open Generic

theorem InternalRaftRequest.effect_assigns (command : InternalRaftRequest) :
    Assigns command.effect := by
  cases command with
  | kvPut request => exact Assigns.update _ _
  | kvGet request => exact .id
  | kvDelete request => exact Assigns.update _ _
  | notSet => exact .id

section Restarts
variable [Protobuf]

theorem StateMachine.applyEntry_assigns (entry : LogEntry) :
    Assigns fun st => applyEntry st entry := by
  cases hparse : (Wire.parse entry.command : Option InternalRaftRequest) with
  | none =>
    have hskip : ∀ st, applyEntry st entry = st := fun st => by rw [applyEntry, hparse]
    simp only [hskip]
    exact .id
  | some command =>
    have heffect : ∀ st, applyEntry st entry = command.effect st := fun st => by
      rw [applyEntry, hparse]
      cases command <;> rfl
    simp only [heffect]
    exact command.effect_assigns

/-- The store after a process has applied some batches, the last of them perhaps in part. -/
def applyBatches (st : Storage) (batches : List (List LogEntry)) : Storage :=
  batches.foldl (fun st batch => (StateMachine.applyEntries ⟨st,[]⟩ batch).st) st

/-- How the log was cut into batches makes no difference. -/
theorem applyBatches_eq (st : Storage) (batches : List (List LogEntry)) :
    applyBatches st batches = batches.flatten.foldl StateMachine.applyEntry st := by
  rw [List.foldl_flatten]
  rfl

/-- A log applied from its first entry gives the same store over what any number of crashed
processes that had each applied a beginning of it have left. -/
theorem applyEntries_after_restarts (st : Storage) (entries : List LogEntry)
    {processes : List (List (List LogEntry))}
    (hbegun : ∀ batches ∈ processes, batches.flatten <+: entries) :
    (StateMachine.applyEntries ⟨processes.foldl applyBatches st,[]⟩ entries).st =
      (StateMachine.applyEntries ⟨st,[]⟩ entries).st := by
  have hstores : processes.foldl applyBatches st = (processes.map List.flatten).foldl
      (fun st begun => begun.foldl StateMachine.applyEntry st) st := by
    rw [List.foldl_map]
    exact List.foldl_ext _ _ _ fun st batches _ => applyBatches_eq st batches
  have hprefixes : ∀ begun ∈ processes.map List.flatten, begun <+: entries :=
    List.forall_mem_map.mpr hbegun
  change entries.foldl StateMachine.applyEntry (processes.foldl applyBatches st) =
    entries.foldl StateMachine.applyEntry st
  rw [hstores, Assigns.foldl_prefixes StateMachine.applyEntry_assigns hprefixes]

/-- A restarted node that has committed as much as the crashed processes had applied has the
store of a node that never crashed. -/
theorem RaftNode.applyView_after_restarts {n : RaftNode} {kv : Storage}
    (hfirst : n.logs.firstIndex = 1) (hstart : n.lastApplied = 0) (hpos : 0 < n.commitIndex)
    (hcommit : n.commitIndex ≤ n.logs.entries.length)
    {processes : List (List (List LogEntry))}
    (hstore : n.stateMachine.st = processes.foldl applyBatches kv)
    (hbegun : ∀ batches ∈ processes, batches.flatten <+: n.logs.entries.take n.commitIndex) :
    ∃ n' events, n.applyView = some (n',events) ∧ n'.lastApplied = n.commitIndex ∧
      n'.stateMachine.st = replay (commandsOf (n.logs.entries.take n.commitIndex)) kv := by
  have hview : n.logs.entriesView (n.lastApplied + 1) n.commitIndex =
      .ok ⟨0,n.commitIndex⟩ := by
    have hlast := RaftLog.lastLogIndex_eq hfirst
    rw [RaftLog.entriesView, if_neg (by omega), hfirst, hstart, sub64, if_pos (by omega)]
    rfl
  have hread : (⟨0,n.commitIndex⟩ : Span).read n.logs.entries =
      some (n.logs.entries.take n.commitIndex) := by
    rw [Span.read, if_pos (by simpa using hcommit)]
    rfl
  have hbatch : (n.stateMachine.applyEntries (n.logs.entries.take n.commitIndex)).st =
      replay (commandsOf (n.logs.entries.take n.commitIndex)) kv := by
    have hagain := applyEntries_after_restarts kv _ hbegun
    rw [StateMachine.applyEntries_replay, StateMachine.applyEntries_replay] at hagain
    rw [StateMachine.applyEntries_replay, hstore]
    exact hagain
  unfold applyView
  rw [hview]
  simp only [hread]
  exact ⟨_,_,rfl,rfl,hbatch⟩

end Restarts

section Example
attribute [local instance] Proto3.protobuf

/-- A key put, deleted and put again. -/
def rewritten : List LogEntry :=
  [.kvPut ⟨[1],[10],∅⟩,.kvDelete ⟨[1],∅⟩,.kvPut ⟨[1],[20],∅⟩].zipIdx.map fun e =>
    ⟨1,e.2 + 1,Wire.serialize (e.1 : InternalRaftRequest)⟩

/-- Between the processes the store goes back to the first value. -/
theorem applyEntries_after_two_restarts :
    [[rewritten.take 2],[rewritten.take 1]].foldl applyBatches Storage.empty [1] = some [10] ∧
    (StateMachine.applyEntries ⟨[[rewritten.take 2],[rewritten.take 1]].foldl applyBatches
      Storage.empty,[]⟩ rewritten).st =
      (StateMachine.applyEntries ⟨Storage.empty,[]⟩ rewritten).st :=
  ⟨by decide,applyEntries_after_restarts Storage.empty rewritten (by decide)⟩

end Example
end Foskv.Raft
