import Mathlib.Data.List.Basic
import Mathlib.Data.Nat.Notation

/-! Replacing the end of a log by what a leader sends for it: entries of the same term stay, and
the first disagreement takes everything behind it away. -/
namespace Foskv.Generic

variable {α : Type} (term : α → ℕ)

def splice : List α → List α → List α
  | [],es => es
  | o::old,[] => o::old
  | o::old,e::es => if term o = term e then o :: splice old es else e::es

@[simp] theorem splice_nil (es : List α) : splice term [] es = es := by
  simp [splice]

@[simp] theorem splice_self (es : List α) : splice term es es = es := by
  induction es with
  | nil => rfl
  | cons e es ih => simp [splice, ih]

/-- A second time there is nothing left to replace. -/
theorem splice_splice (old es : List α) :
    splice term (splice term old es) es = splice term old es := by
  induction old generalizing es with
  | nil => simp
  | cons o old ih =>
    cases es with
    | nil => rfl
    | cons e es =>
      by_cases hterm : term o = term e
      · simp [splice, hterm, ih]
      · simp [splice, hterm]

theorem length_splice_le (old es : List α) :
    (splice term old es).length ≤ old.length + es.length := by
  induction old generalizing es with
  | nil => simp
  | cons o old ih =>
    cases es with
    | nil => simp [splice]
    | cons e es =>
      have := ih es
      rw [splice]
      split_ifs <;> simp only [List.length_cons] <;> omega

/-- Where there is something to compare, the result is shorter than one list behind the other. -/
theorem length_splice_lt {old es : List α} (hold : old ≠ []) (hes : es ≠ []) :
    (splice term old es).length < old.length + es.length := by
  obtain ⟨o,old,rfl⟩ := List.exists_cons_of_ne_nil hold
  obtain ⟨e,es,rfl⟩ := List.exists_cons_of_ne_nil hes
  have := length_splice_le term old es
  rw [splice]
  split_ifs <;> simp only [List.length_cons] <;> omega

end Foskv.Generic
