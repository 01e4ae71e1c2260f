import Foskv.Generic.LeaderLogs
import Foskv.Raft.Elections

/-! The logs of a run against the logs its leaders wrote. -/
namespace Foskv.Raft
open Generic

/-- The term of the last entry. -/
abbrev lastTermOf (entries : List LogEntry) : ℕ := lastTerm LogEntry.term entries

namespace RaftLog

theorem lastLogTerm_eq (l : RaftLog) : l.lastLogTerm = lastTermOf l.entries := by
  unfold lastLogTerm lastTermOf lastTerm
  cases l.entries.getLast? <;> rfl

variable {l : RaftLog} (hfirst : l.firstIndex = 1)
include hfirst

theorem lastLogIndex_eq : l.lastLogIndex = l.entries.length := by
  rw [lastLogIndex, hfirst]
  omega

theorem termAt_eq {i : ℕ} (hi : i ≤ l.entries.length) :
    l.termAt i = lastTermOf (l.entries.take i) := by
  unfold termAt
  rw [lastLogIndex_eq hfirst, hfirst]
  cases i with
  | zero => simp [lastTermOf, lastTerm]
  | succ i =>
    have hlt : i < l.entries.length := hi
    have hget := List.getElem?_eq_getElem hlt
    rw [if_neg (by omega), lastTermOf, lastTerm_take hget]
    simp [hget]

theorem entryAt_eq {i : ℕ} : l.entryAt i =
    if i = 0 then .error .invalidLogIndex
    else match l.entries[i - 1]? with
      | none => .error .invalidLogIndex
      | some entry => .ok entry := by
  unfold entryAt
  rw [lastLogIndex_eq hfirst, hfirst]
  obtain rfl | hpos := Nat.eq_zero_or_pos i
  · simp
  · rw [if_neg (by omega : ¬i = 0)]
    by_cases hlt : l.entries.length < i
    · rw [if_pos (Or.inr hlt), List.getElem?_eq_none (by omega)]
    · refine (if_neg (by omega)).trans ?_
      cases l.entries[i - 1]? <;> rfl

theorem entryAt_ok {i : ℕ} {e : LogEntry} :
    l.entryAt i = .ok e ↔ 0 < i ∧ l.entries[i - 1]? = some e := by
  rw [entryAt_eq hfirst]
  split_ifs with h
  · simp [h]
  · rw [and_iff_right (Nat.pos_of_ne_zero h)]
    cases l.entries[i - 1]? <;> simp

omit hfirst in
/-- Logs with the same first entries show the same entries. -/
theorem entryAt_congr {l l' : RaftLog} (hfirst : l.firstIndex = 1) (hfirst' : l'.firstIndex = 1)
    {k : ℕ} (h : l'.entries.take k = l.entries.take k) {i : ℕ} (hi : i ≤ k) :
    l'.entryAt i = l.entryAt i := by
  rw [entryAt_eq hfirst, entryAt_eq hfirst']
  split_ifs with h0
  · rfl
  · rw [getElem?_of_take_eq h (by omega)]

theorem entryAt_of_le {i : ℕ} (hpos : 0 < i) (hi : i ≤ l.entries.length) :
    ∃ e, l.entryAt i = .ok e :=
  ⟨_,(entryAt_ok hfirst).mpr ⟨hpos,List.getElem?_eq_getElem (by omega)⟩⟩

end RaftLog

namespace RaftNode
variable {cfg : RaftConfig} {n : RaftNode} (hfirst : n.logs.firstIndex = 1)
include hfirst

/-- A re-send carries the rest of the log. -/
theorem reissueRequest_entries {nextIndex : ℕ} (hpos : 0 < nextIndex) :
    (n.reissueRequest cfg nextIndex).entries = n.logs.entries.drop (nextIndex - 1) := by
  have hsome : ∀ i, (n.logs.entryAt i).toOption =
      if i = 0 then none else n.logs.entries[i - 1]? := by
    intro i
    rw [RaftLog.entryAt_eq hfirst]
    split_ifs
    · rfl
    · cases n.logs.entries[i - 1]? <;> rfl
  obtain ⟨k,rfl⟩ : ∃ k, nextIndex = k + 1 := ⟨nextIndex - 1,by omega⟩
  simp only [reissueRequest, hsome, RaftLog.lastLogIndex_eq hfirst, Nat.add_sub_add_right,
    Nat.add_sub_cancel]
  have hmap : List.range' (k + 1) (n.logs.entries.length - k) =
      (List.range (n.logs.entries.length - k)).map (fun j => k + 1 + j) := by
    rw [List.range_eq_range', List.map_add_range']
  rw [hmap, List.filterMap_map]
  have hfun : ((fun i => if i = 0 then none else n.logs.entries[i - 1]?) ∘ fun j => k + 1 + j) =
      fun j => (n.logs.entries.drop k)[j]? := by
    funext j
    simp only [Function.comp_apply, List.getElem?_drop]
    rw [if_neg (by omega)]
    congr 1
    omega
  rw [hfun]
  have hlen : n.logs.entries.length - k = (n.logs.entries.drop k).length := by simp
  rw [hlen]
  generalize n.logs.entries.drop k = es
  induction es using List.reverseRecOn with
  | nil => rfl
  | append_singleton es e ih =>
    rw [List.length_append, List.length_singleton, List.range_succ, List.filterMap_append]
    congr 1
    · refine (List.filterMap_congr fun j hj => ?_).trans ih
      rw [List.getElem?_append_left (List.mem_range.mp hj)]
    · simp

theorem extended_prevLogIndex (entry : LogEntry) (p : Persister) :
    (n.extended [entry] p).logs.prevLogIndex = n.logs.entries.length := by
  simp [extended, RaftLog.prevLogIndex, RaftLog.lastLogIndex, hfirst]

omit hfirst in
theorem extended_prevLogTerm (entry : LogEntry) (p : Persister) :
    (n.extended [entry] p).logs.prevLogTerm = lastTermOf n.logs.entries := by
  simp only [extended, RaftLog.prevLogTerm, List.length_append, List.length_singleton]
  obtain h | ⟨es,e,h⟩ := List.eq_nil_or_concat n.logs.entries
  · simp [h, lastTermOf, lastTerm]
  · simp [h, lastTermOf, lastTerm]

end RaftNode
end Foskv.Raft
