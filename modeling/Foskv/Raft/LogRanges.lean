import Foskv.Raft.DiskLog

/-! Ranges of log indexes: the view of a range in memory and the removal of one from the store. -/
namespace Foskv.Raft
open Generic

namespace IndexedFrom
variable {start i j : ℕ} {es : List LogEntry} {e : LogEntry}

theorem bounds_of_mem (h : IndexedFrom start es) (he : e ∈ es) :
    start ≤ e.index ∧ e.index < start + es.length := by
  obtain ⟨k,hk⟩ := List.mem_iff_getElem?.mp he
  have hindex := h k e hk
  have hlt := (List.getElem?_eq_some_iff.mp hk).1
  omega

/-- The entries of a range of indexes are a piece of the log. -/
theorem filter_eq (h : IndexedFrom start es) (hi : start ≤ i) :
    es.filter (fun e => i ≤ e.index ∧ e.index ≤ j) = (es.drop (i - start)).take (j + 1 - i) := by
  have hsplit : es = es.take (i - start) ++ ((es.drop (i - start)).take (j + 1 - i) ++
      (es.drop (i - start)).drop (j + 1 - i)) := by
    rw [List.take_append_drop, List.take_append_drop]
  have hbefore : (es.take (i - start)).filter (fun e => i ≤ e.index ∧ e.index ≤ j) = [] := by
    refine List.filter_eq_nil_iff.mpr fun e he => ?_
    have hindex := (h.take _).bounds_of_mem he
    rw [List.length_take] at hindex
    simp only [decide_eq_true_eq]
    omega
  have hinside : ((es.drop (i - start)).take (j + 1 - i)).filter
      (fun e => i ≤ e.index ∧ e.index ≤ j) = (es.drop (i - start)).take (j + 1 - i) := by
    refine List.filter_eq_self.mpr fun e he => ?_
    have hindex := ((h.drop (i - start)).take _).bounds_of_mem he
    rw [List.length_take] at hindex
    simp only [decide_eq_true_eq]
    omega
  have hbehind : ((es.drop (i - start)).drop (j + 1 - i)).filter
      (fun e => i ≤ e.index ∧ e.index ≤ j) = [] := by
    refine List.filter_eq_nil_iff.mpr fun e he => ?_
    have hindex := ((h.drop (i - start)).drop (j + 1 - i)).bounds_of_mem he
    simp only [decide_eq_true_eq]
    omega
  conv_lhs => rw [hsplit]
  rw [List.filter_append, List.filter_append, hbefore, hinside, hbehind, List.append_nil,
    List.nil_append]

end IndexedFrom

namespace RaftLog
variable {l : RaftLog} {startIndex endIndex : ℕ} {view : Span}

/-- The view of a range lies inside the vector and shows the entries of the range, as many as it
has indexes. -/
structure ShowsRange (l : RaftLog) (startIndex endIndex : ℕ) (view : Span) : Prop where
  inside : view.offset + view.count ≤ l.entries.length
  shows : view.read l.entries =
    some (l.entries.filter fun e => startIndex ≤ e.index ∧ e.index ≤ endIndex)
  count : startIndex + view.count = endIndex + 1

theorem entriesView_eq_ok : l.entriesView startIndex endIndex = .ok view ↔
    (l.firstIndex ≤ startIndex ∧ startIndex ≤ l.lastLogIndex ∧ endIndex ≤ l.lastLogIndex) ∧
      view = ⟨startIndex - l.firstIndex,sub64 (endIndex + 1) startIndex⟩ := by
  unfold entriesView
  split_ifs with h
  · refine iff_of_false nofun fun hok => ?_
    omega
  · rw [Except.ok.injEq]
    exact ⟨fun heq => ⟨by omega,heq.symm⟩,fun hok => hok.2.symm⟩

/-- A range that ends right before it starts or later is shown as it is. -/
theorem showsRange_of_le (hlast : 0 < l.firstIndex + l.entries.length)
    (h : IndexedFrom l.firstIndex l.entries) (hle : startIndex ≤ endIndex + 1)
    (hview : l.entriesView startIndex endIndex = .ok view) :
    l.ShowsRange startIndex endIndex view := by
  obtain ⟨⟨hfirst,-,hend⟩,rfl⟩ := entriesView_eq_ok.mp hview
  rw [lastLogIndex] at hend
  have hcount : sub64 (endIndex + 1) startIndex = endIndex + 1 - startIndex := if_pos hle
  have hinside : startIndex - l.firstIndex + (endIndex + 1 - startIndex) ≤ l.entries.length := by
    omega
  rw [hcount]
  refine ⟨hinside,?_,Nat.add_sub_of_le hle⟩
  rw [Span.read, if_pos hinside, h.filter_eq hfirst]

/-- A range that ends earlier has a length that wraps around. -/
theorem not_showsRange_of_lt (hlt : endIndex + 1 < startIndex)
    (hview : l.entriesView startIndex endIndex = .ok view) :
    ¬l.ShowsRange startIndex endIndex view := by
  obtain ⟨-,rfl⟩ := entriesView_eq_ok.mp hview
  intro hshows
  have hcount : startIndex + sub64 (endIndex + 1) startIndex = endIndex + 1 := hshows.count
  omega

/-- Every view shows its range, unless the range starts in the log and ends more than one index
before its start. -/
theorem entriesView_shows_iff (l : RaftLog) (startIndex endIndex : ℕ)
    (hlast : 0 < l.firstIndex + l.entries.length) (h : IndexedFrom l.firstIndex l.entries) :
    (∀ view, l.entriesView startIndex endIndex = .ok view →
      l.ShowsRange startIndex endIndex view) ↔
    ¬(l.firstIndex ≤ startIndex ∧ startIndex ≤ l.lastLogIndex ∧ endIndex + 1 < startIndex) := by
  refine ⟨fun hall hcond => ?_,fun hcond view hview => ?_⟩
  · obtain ⟨hfirst,hstart,hlt⟩ := hcond
    have hview : l.entriesView startIndex endIndex =
        .ok ⟨startIndex - l.firstIndex,sub64 (endIndex + 1) startIndex⟩ :=
      entriesView_eq_ok.mpr ⟨⟨hfirst,hstart,by omega⟩,rfl⟩
    exact not_showsRange_of_lt hlt hview (hall _ hview)
  · obtain ⟨⟨hfirst,hstart,-⟩,-⟩ := entriesView_eq_ok.mp hview
    apply showsRange_of_le hlast h _ hview
    by_contra hlt
    exact hcond ⟨hfirst,hstart,by omega⟩

/-- A range that starts in a log of three entries, and one that starts right behind its end. -/
theorem entriesView_shows_three :
    ∃ l : RaftLog, l.lastLogIndex = 3 ∧
      (∀ view, l.entriesView 2 3 = .ok view → l.ShowsRange 2 3 view) ∧
      ∀ view, l.entriesView 3 2 = .ok view → l.ShowsRange 3 2 view := by
  refine ⟨⟨1,[⟨1,1,[7]⟩,⟨1,2,[8]⟩,⟨2,3,[9]⟩],⟨Storage.empty⟩⟩,rfl,?_,?_⟩
  · exact (entriesView_shows_iff _ _ _ (by decide) (by decide)).mpr (by decide)
  · exact (entriesView_shows_iff _ _ _ (by decide) (by decide)).mpr (by decide)

/-- Entries up to 2 are applied, and the commit index goes back to 1. -/
theorem entriesView_leaves_log : ∃ l : RaftLog, 0 < l.firstIndex + l.entries.length ∧
    IndexedFrom l.firstIndex l.entries ∧
    ∃ view, l.entriesView (2 + 1) 1 = .ok view ∧ view.count = UInt64.size - 1 ∧
      view.read l.entries = none ∧ ¬l.ShowsRange (2 + 1) 1 view := by
  refine ⟨⟨1,[⟨1,1,[7]⟩,⟨1,2,[8]⟩,⟨2,3,[9]⟩],⟨Storage.empty⟩⟩,by decide,by decide,_,rfl,rfl,rfl,?_⟩
  exact not_showsRange_of_lt (by decide) rfl

end RaftLog

namespace Persister
variable {p : Persister} {accepted : Bool} {startIndex endIndex count i : ℕ} {keys : List Bytes}

/-- The loop leaves its vector at once or not at all: each round adds one key and reads at the
next index. -/
theorem truncateKeys_eq_none_iff : truncateKeys count i keys = none ↔
    0 < count ∧ keys.length < i := by
  induction count generalizing i keys with
  | zero => simp [truncateKeys]
  | succ count ih =>
    simp only [truncateKeys, Option.bind_eq_bind]
    cases hkey : (keys ++ [toString i])[i]? with
    | none =>
      rw [List.getElem?_eq_none_iff, List.length_append, List.length_singleton] at hkey
      simp only [Option.bind_none, true_iff]
      omega
    | some key =>
      have hlt := (List.getElem?_eq_some_iff.mp hkey).1
      rw [List.length_append, List.length_singleton] at hlt
      rw [Option.bind_some, Option.bind_eq_none_iff]
      refine iff_of_false (fun hnone => ?_) (by omega)
      cases hrest : truncateKeys count (i + 1) (keys ++ [toString i]) with
      | none =>
        obtain ⟨-,hbehind⟩ := ih.mp hrest
        rw [List.length_append, List.length_singleton] at hbehind
        omega
      | some wb => cases hnone wb hrest

theorem truncateBatch_eq_none_iff : p.truncateBatch accepted startIndex endIndex = none ↔
    startIndex ≤ endIndex ∧ 0 < startIndex := by
  have hkeys := @truncateKeys_eq_none_iff (endIndex + 1 - startIndex) startIndex []
  rw [List.length_nil] at hkeys
  rw [truncateBatch, Option.bind_eq_bind, Option.bind_eq_none_iff]
  cases hwb : truncateKeys (endIndex + 1 - startIndex) startIndex [] with
  | none =>
    refine iff_of_true nofun ?_
    have hnone := hkeys.mp hwb
    omega
  | some wb =>
    refine iff_of_false (fun hnone => ?_) fun h => ?_
    · cases hnone wb rfl
    · have hnone := hkeys.mpr ⟨by omega,h.2⟩
      cases hwb.symm.trans hnone

section Removal
variable [Protobuf]

/-- The store without the entries of a range, as a restart is to find it. -/
structure RangeRemoved (p q : Persister) (startIndex endIndex : ℕ) : Prop where
  removed : ∀ i, startIndex ≤ i → i ≤ endIndex → q.st.get (toString i) = none
  kept : ∀ key, key ≠ lastIndexKey → (∀ i, startIndex ≤ i → i ≤ endIndex → key ≠ toString i) →
    q.st.get key = p.st.get key
  lastIndex : q.st.get lastIndexKey = some (toString (startIndex - 1))
  recovered : ∀ first log, p.Stores first log →
    ∃ q', q.recoverEntries true = .ok (q',log.take (startIndex - first))

/-- The loop stays inside its vector, and a batch that the store takes removes the range. -/
def RemovesRange (p : Persister) (accepted : Bool) (startIndex endIndex : ℕ) : Prop :=
  ∃ r, p.truncateBatch accepted startIndex endIndex = some r ∧
    ∀ q, r = .ok q → p.RangeRemoved q startIndex endIndex

/-- No range of log indexes is removed: with one key in the vector the loop reads the key at
the first index of the range. -/
theorem not_removesRange (p : Persister) (accepted : Bool) {startIndex endIndex : ℕ}
    (hstart : 1 ≤ startIndex) (hend : startIndex ≤ endIndex) :
    ¬p.RemovesRange accepted startIndex endIndex := by
  rintro ⟨r,hr,-⟩
  rw [truncateBatch_eq_none_iff.mpr ⟨hend,hstart⟩] at hr
  cases hr

end Removal

section Fresh
attribute [local instance] Proto3.protobuf

theorem not_removesRange_two : ¬(⟨Storage.empty⟩ : Persister).RemovesRange true 2 3 :=
  not_removesRange _ true (by decide) (by decide)

/-- A fresh store, one entry, and the range of that entry. -/
theorem truncateBatch_leaves_keys : ∃ p q, (⟨Storage.empty⟩ : Persister).recoverEntries true =
      .ok (p,[]) ∧ p.persistBatch true [⟨1,1,[7]⟩] = .ok q ∧ q.truncateBatch true 1 1 = none ∧
    ¬q.RemovesRange true 1 1 := by
  refine ⟨_,_,rfl,rfl,rfl,?_⟩
  rintro ⟨r,hr,-⟩
  cases hr

end Fresh
end Persister
end Foskv.Raft
