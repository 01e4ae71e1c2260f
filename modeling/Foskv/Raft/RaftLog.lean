import Foskv.Raft.Persister

/-! The in-memory log and its store. -/
namespace Foskv.Raft

structure RaftLog where
  firstIndex : ℕ
  entries : List LogEntry
  persister : Persister

/-- The difference of two 64-bit numbers. -/
def sub64 (a b : ℕ) : ℕ := if b ≤ a then a - b else a + UInt64.size - b

/-- A `std::span` into the vector of entries. -/
structure Span where
  offset : ℕ
  count : ℕ
  deriving DecidableEq, Repr

/-- What the span shows of a vector; reading past the vector's end is undefined. -/
def Span.read (view : Span) (entries : List LogEntry) : Option (List LogEntry) :=
  if view.offset + view.count ≤ entries.length then
    some ((entries.drop view.offset).take view.count)
  else none

namespace RaftLog

def lastLogIndex (l : RaftLog) : ℕ := l.firstIndex + l.entries.length - 1

/-- An empty log after a snapshot is not handled by the program; an empty log has term 0. -/
def lastLogTerm (l : RaftLog) : ℕ :=
  match l.entries.getLast? with
  | none => 0
  | some entry => entry.term

def prevLogIndex (l : RaftLog) : ℕ := if l.entries.isEmpty then 0 else l.lastLogIndex - 1

def prevLogTerm (l : RaftLog) : ℕ :=
  match l.entries[l.entries.length - 2]? with
  | none => 0
  | some entry => if l.entries.length = 1 then 0 else entry.term

def entryAt (l : RaftLog) (index : ℕ) : Result LogEntry :=
  if index < l.firstIndex ∨ l.lastLogIndex < index then .error .invalidLogIndex
  else
    match l.entries[index - l.firstIndex]? with
    | none => .error .invalidLogIndex
    | some entry => .ok entry

/-- The length of the span wraps around in 64 bits when the range is empty by more than one. -/
def entriesView (l : RaftLog) (startIndex endIndex : ℕ) : Result Span :=
  if startIndex < l.firstIndex ∨ l.lastLogIndex < startIndex ∨ l.lastLogIndex < endIndex then
    .error .invalidLogIndex
  else .ok ⟨startIndex - l.firstIndex,sub64 (endIndex + 1) startIndex⟩

def termAt (l : RaftLog) (index : ℕ) : ℕ :=
  if index < l.firstIndex ∨ l.lastLogIndex < index then 0
  else
    match l.entries[index - l.firstIndex]? with
    | none => 0
    | some entry => entry.term

section Writes
variable [Protobuf]

def create (p : Persister) (accepted : Bool) : Result RaftLog :=
  match p.recoverEntries accepted with
  | .error e => .error e
  | .ok (p,entries) =>
    .ok ⟨match entries.head? with | none => 1 | some entry => entry.index,entries,p⟩

/-- `none` when the entry is longer than the persister's buffer. -/
def appendEntry (l : RaftLog) (accepted : Bool) (entry : LogEntry) : Option (Result RaftLog) := do
  match ← l.persister.persistEntry accepted entry with
  | .error e => return .error e
  | .ok p => return .ok { l with entries := l.entries ++ [entry], persister := p }

def appendEntries (l : RaftLog) (accepted : Bool) (entries : List LogEntry) : Result RaftLog :=
  match l.persister.persistBatch accepted entries with
  | .error e => .error e
  | .ok p => .ok { l with entries := l.entries ++ entries, persister := p }

section Sizes
variable {l : RaftLog} {accepted : Bool} {entry : LogEntry}

theorem appendEntry_of_le (h : (Wire.serialize entry : Bytes).length ≤ Persister.bufferSize) :
    l.appendEntry accepted entry = some (l.appendEntries accepted [entry]) := by
  simp only [appendEntry, Persister.persistEntry_of_le h, appendEntries, Option.bind_eq_bind,
    Option.bind_some]
  cases l.persister.persistBatch accepted [entry] <;> rfl

theorem appendEntry_eq_none_iff : l.appendEntry accepted entry = none ↔
    Persister.bufferSize < (Wire.serialize entry : Bytes).length := by
  by_cases h : (Wire.serialize entry : Bytes).length ≤ Persister.bufferSize
  · simp [appendEntry_of_le h, h]
  · have hnone : l.persister.persistEntry accepted entry = none :=
      Persister.persistEntry_eq_none_iff.mpr (Nat.lt_of_not_le h)
    simp [appendEntry, hnone, Nat.lt_of_not_le h]

theorem appendEntry_eq_some {r : Result RaftLog} (h : l.appendEntry accepted entry = some r) :
    (Wire.serialize entry : Bytes).length ≤ Persister.bufferSize ∧
      l.appendEntries accepted [entry] = r := by
  obtain ⟨persisted,hp,-⟩ := Option.bind_eq_some_iff.mp h
  have hle := (Persister.persistEntry_eq_some hp).1
  exact ⟨hle,Option.some.inj ((appendEntry_of_le hle).symm.trans h)⟩

end Sizes

/-- The end of the range handed to `truncate_batch` is read after the vector was cut. A failed
store write is only logged. -/
def truncateEntries (l : RaftLog) (accepted : Bool) (startIndex : ℕ) : Option RaftLog :=
  if startIndex < l.firstIndex ∨ l.lastLogIndex < startIndex then some l
  else do
    let cut : RaftLog := { l with entries := l.entries.take (startIndex - l.firstIndex) }
    match ← cut.persister.truncateBatch accepted startIndex cut.lastLogIndex with
    | .error _ => return cut
    | .ok p => return { cut with persister := p }

end Writes
end RaftLog
end Foskv.Raft
