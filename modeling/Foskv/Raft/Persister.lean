import Foskv.Rpc.Protobuf
import Foskv.Storage.Storage

/-! The raft store: one key per log index, the two index markers and the vote record.
Every writing function takes whether RocksDB accepts its write. -/
namespace Foskv.Raft

def firstIndexKey : Bytes := ascii "first_index"

def lastIndexKey : Bytes := ascii "last_index"

def persistStateKey : Bytes := ascii "persist_state"

structure Persister where
  st : Storage

namespace Persister

variable [Protobuf]

/-- `Persister::persist(current_term, voted_for)`. Two 64-bit numbers always fit `buffer_`. -/
def persistState (p : Persister) (accepted : Bool) (currentTerm : ℕ) (votedFor : Option MemberId) :
    Result Persister :=
  let state : PersistState := ⟨currentTerm,votedFor⟩
  if accepted then .ok ⟨p.st.put persistStateKey (Wire.serialize state)⟩
  else .error .persistStatePutFailed

/-- The size of `buffer_`. -/
def bufferSize : ℕ := 128

/-- `Persister::persist(entry)`: `none` when the entry is serialised past the end of `buffer_`. -/
def persistEntry (p : Persister) (accepted : Bool) (entry : LogEntry) : Option (Result Persister) :=
  let key := toString entry.index
  let value : Bytes := Wire.serialize entry
  if bufferSize < value.length then none
  else
    let wb := [.put key value,.put lastIndexKey key]
    some (if accepted then .ok ⟨p.st.batchWrite wb⟩ else .error .logEntriesPersistFailed)

def persistBatch (p : Persister) (accepted : Bool) (entries : List LogEntry) : Result Persister :=
  match entries.getLast? with
  | none => .error .logEntriesPersistFailed
  | some last =>
    let wb := entries.map (fun entry => .put (toString entry.index) (Wire.serialize entry)) ++
      [.put lastIndexKey (toString last.index)]
    if accepted then .ok ⟨p.st.batchWrite wb⟩ else .error .logEntriesPersistFailed

/-- A short entry is persisted like a batch of one. -/
theorem persistEntry_of_le {p : Persister} {accepted : Bool} {entry : LogEntry}
    (h : (Wire.serialize entry : Bytes).length ≤ bufferSize) :
    p.persistEntry accepted entry = some (p.persistBatch accepted [entry]) := by
  rw [persistEntry, if_neg (Nat.not_lt_of_le h)]
  rfl

theorem persistEntry_eq_none_iff {p : Persister} {accepted : Bool} {entry : LogEntry} :
    p.persistEntry accepted entry = none ↔ bufferSize < (Wire.serialize entry : Bytes).length := by
  by_cases h : bufferSize < (Wire.serialize entry : Bytes).length
  · exact iff_of_true (if_pos h) h
  · rw [persistEntry_of_le (Nat.le_of_not_lt h)]
    exact iff_of_false nofun h

theorem persistEntry_eq_some {p : Persister} {accepted : Bool} {entry : LogEntry}
    {r : Result Persister} (h : p.persistEntry accepted entry = some r) :
    (Wire.serialize entry : Bytes).length ≤ bufferSize ∧ p.persistBatch accepted [entry] = r := by
  have hle : (Wire.serialize entry : Bytes).length ≤ bufferSize := by
    refine Nat.le_of_not_lt fun hlt => ?_
    rw [persistEntry_eq_none_iff.mpr hlt] at h
    cases h
  exact ⟨hle,Option.some.inj ((persistEntry_of_le hle).symm.trans h)⟩

/-- The loop of `truncate_batch` from index `i` on, with `count` rounds to go: it pushes the
key of `i` and deletes `keys[i]`, which is undefined when `keys` has no place `i`. -/
def truncateKeys : (count i : ℕ) → (keys : List Bytes) → Option (List Storage.WriteOp)
  | 0,_,_ => some []
  | count+1,i,keys => do
    let keys := keys ++ [toString i]
    let key ← keys[i]?
    let wb ← truncateKeys count (i+1) keys
    return .delete key :: wb

/-- `none` when the loop reads outside its vector. -/
def truncateBatch (p : Persister) (accepted : Bool) (startIndex endIndex : ℕ) :
    Option (Result Persister) := do
  let wb ← truncateKeys (endIndex + 1 - startIndex) startIndex []
  return if accepted then .ok ⟨p.st.batchWrite wb⟩ else .error .logEntriesTruncateFailed

def recoverState (p : Persister) : Result PersistState :=
  match p.st.get persistStateKey with
  | none => .ok ⟨0,none⟩
  | some value =>
    match Wire.parse value with
    | none => .error .persistStateParseFailed
    | some state => .ok state

/-- Parse the values of `MultiGet` in order, failing at the first absent or broken one. -/
def parseEntries : List (Option Bytes) → Result (List LogEntry)
  | [] => .ok []
  | none :: _ => .error .logEntriesRecoverFailed
  | some value :: values =>
    match Wire.parse value with
    | none => .error .logEntryParseFailed
    | some entry => (parseEntries values).map (entry :: ·)

/-- The store it leaves behind and the entries it reads. A fresh store gets its markers here. -/
def recoverEntries (p : Persister) (accepted : Bool) : Result (Persister × List LogEntry) :=
  match p.st.get firstIndexKey,p.st.get lastIndexKey with
  | none,none =>
    let wb := [.put firstIndexKey (toString 1),.put lastIndexKey (toString 0)]
    if accepted then .ok (⟨p.st.batchWrite wb⟩,[]) else .error .logEntriesPersistFailed
  | some firstIndexValue,some lastIndexValue =>
    match stoull firstIndexValue,stoull lastIndexValue with
    | some firstIndex,some lastIndex =>
      if firstIndex = 0 ∨ (lastIndex ≠ 0 ∧ lastIndex < firstIndex) then .error .invalidLogIndex
      else if lastIndex = 0 then
        .ok (if accepted then ⟨p.st.put firstIndexKey (toString 1)⟩ else p,[])
      else
        let keys := (List.range' firstIndex (lastIndex - firstIndex + 1)).map toString
        let values := p.st.multiGet keys
        if values.all Option.isSome then (parseEntries values).map (p,·)
        else .error .logEntriesRecoverFailed
    | _,_ => .error .logIndexToUllFailed
  | _,_ => .error .invalidLogIndex

end Persister
end Foskv.Raft
