import Mathlib.Data.List.TakeWhile

/-! The first and the last place of a separator in a list. -/
namespace Foskv.Generic

variable {α : Type*} [DecidableEq α] {c : α}

/-- The place of the last `c`. -/
def lastIdxOf? (c : α) (l : List α) : Option ℕ :=
  (l.reverse.idxOf? c).map fun i => l.length - 1 - i

/-- A list that has a separator, cut at the first one. -/
theorem idxOf?_append_cons {l r : List α} (h : c ∉ l) : (l ++ c :: r).idxOf? c = some l.length := by
  induction l with
  | nil => simp [List.idxOf?_cons]
  | cons a l ih =>
    obtain ⟨hne,hl⟩ := not_or.mp (mt List.mem_cons.mpr h)
    rw [List.cons_append, List.idxOf?_cons, ih hl]
    simp [Ne.symm hne]

/-- A list that has a separator, cut at the last one. -/
theorem lastIdxOf?_append_cons {l r : List α} (h : c ∉ r) :
    lastIdxOf? c (l ++ c :: r) = some l.length := by
  have hreverse : (l ++ c :: r).reverse = r.reverse ++ c :: l.reverse := by simp
  rw [lastIdxOf?, hreverse, idxOf?_append_cons (by simpa using h)]
  simp only [Option.map_some, List.length_append, List.length_cons, List.length_reverse]
  congr 1
  omega

omit [DecidableEq α] in
theorem exists_last_of_mem {l : List α} (h : c ∈ l) : ∃ a b, l = a ++ c :: b ∧ c ∉ b := by
  obtain ⟨b,a,hsplit,hb⟩ := List.eq_append_cons_of_mem (List.mem_reverse.mpr h)
  refine ⟨a.reverse,b.reverse,?_,by simpa using hb⟩
  rw [← List.reverse_reverse l, hsplit]
  simp

/-- The part before the first separator. -/
theorem takeWhile_eq_of_idxOf? {l : List α} :
    l.takeWhile (· ≠ c) = (l.idxOf? c).elim l l.take := by
  have hother : ∀ l : List α, c ∉ l → ∀ x ∈ l, decide (x ≠ c) = true :=
    fun l hl x hx => decide_eq_true fun he => hl (he ▸ hx)
  by_cases hc : c ∈ l
  · obtain ⟨a,b,rfl,ha⟩ := List.eq_append_cons_of_mem hc
    rw [idxOf?_append_cons ha, Option.elim_some, List.take_left,
      List.takeWhile_append_of_pos (hother a ha)]
    simp
  · rw [List.idxOf?_eq_none_iff.mpr hc, Option.elim_none]
    exact List.takeWhile_eq_self_iff.mpr (hother l hc)

end Foskv.Generic
