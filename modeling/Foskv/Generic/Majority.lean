import Mathlib.Data.Finset.Card
import Mathlib.Data.List.Sort

/-! Majorities of a finite set, and the middle of a list of numbers as a count. -/
namespace Foskv.Generic

section Majorities
variable {α : Type*} [DecidableEq α]

/-- More than half of `U`. -/
def Majority (U Q : Finset α) : Prop := Q ⊆ U ∧ U.card/2 + 1 ≤ Q.card

instance (U Q : Finset α) : Decidable (Majority U Q) :=
  inferInstanceAs (Decidable (Q ⊆ U ∧ _ ≤ _))

/-- Two majorities share a member. -/
theorem Majority.inter {U Q Q' : Finset α} (h : Majority U Q) (h' : Majority U Q') :
    ∃ a ∈ Q, a ∈ Q' := by
  have hcard : U.card < Q.card + Q'.card := by
    have h₁ := h.2
    have h₂ := h'.2
    omega
  obtain ⟨a,ha⟩ := Finset.inter_nonempty_of_card_lt_card_add_card h.1 h'.1 hcard
  exact ⟨a,Finset.mem_inter.mp ha⟩

omit [DecidableEq α] in
theorem Majority.superset {U Q Q' : Finset α} (h : Majority U Q) (hsub : Q ⊆ Q')
    (hQ' : Q' ⊆ U) : Majority U Q' :=
  ⟨hQ',h.2.trans (Finset.card_le_card hsub)⟩

end Majorities

section Middle

/-- Half of the numbers, rounded up, are at least `v`. -/
def HalfReached (l : List ℕ) (v : ℕ) : Prop := l.length - l.length/2 ≤ l.countP (v ≤ ·)

instance (l : List ℕ) (v : ℕ) : Decidable (HalfReached l v) :=
  inferInstanceAs (Decidable (_ ≤ _))

theorem HalfReached.of_le {l : List ℕ} {v w : ℕ} (h : HalfReached l w) (hle : v ≤ w) :
    HalfReached l v := by
  refine Nat.le_trans h (List.countP_mono_left fun x _ hx => ?_)
  simp only [decide_eq_true_eq] at hx ⊢
  exact hle.trans hx

/-- In a sorted list the places from `i` on are what is at least as large as place `i`. -/
theorem le_getElem_iff_countP {l : List ℕ} (hl : l.Pairwise (· ≤ ·)) {i : ℕ} (hi : i < l.length)
    (v : ℕ) : v ≤ l[i] ↔ l.length - i ≤ l.countP (v ≤ ·) := by
  constructor
  · intro hv
    have hdrop : (l.drop i).countP (v ≤ ·) = (l.drop i).length := by
      refine List.countP_eq_length.mpr fun x hx => ?_
      obtain ⟨k,hk,rfl⟩ := List.mem_iff_getElem.mp hx
      rw [List.length_drop] at hk
      rw [List.getElem_drop, decide_eq_true_eq]
      obtain rfl | hpos := Nat.eq_zero_or_pos k
      · simpa using hv
      · exact hv.trans (List.pairwise_iff_getElem.mp hl i (i + k) hi (by omega) (by omega))
    rw [← List.length_drop, ← hdrop]
    exact (List.drop_sublist i l).countP_le
  · intro hcount
    by_contra hv
    have htake : (l.take (i + 1)).countP (v ≤ ·) = 0 := by
      refine List.countP_eq_zero.mpr fun x hx => ?_
      obtain ⟨k,hk,rfl⟩ := List.mem_iff_getElem.mp hx
      rw [List.length_take] at hk
      rw [List.getElem_take, decide_eq_true_eq, Nat.not_le]
      obtain rfl | hlt := Nat.eq_or_lt_of_le (by omega : k ≤ i)
      · omega
      · have := List.pairwise_iff_getElem.mp hl k i (by omega) hi hlt
        omega
    have hsplit := congrArg (List.countP (v ≤ ·)) (List.take_append_drop (i + 1) l)
    rw [List.countP_append, htake] at hsplit
    have hle : (l.drop (i + 1)).countP (v ≤ ·) ≤ (l.drop (i + 1)).length := List.countP_le_length
    rw [List.length_drop] at hle
    omega

theorem middle_mem {l : List ℕ} (hl : l ≠ []) :
    ((l.insertionSort (· ≤ ·))[(l.insertionSort (· ≤ ·)).length/2]?).getD 0 ∈ l := by
  have hlen : (l.insertionSort (· ≤ ·)).length = l.length := List.length_insertionSort _ l
  have hpos : 0 < l.length := List.length_pos_iff.mpr hl
  have hi : (l.insertionSort (· ≤ ·)).length/2 < (l.insertionSort (· ≤ ·)).length := by omega
  rw [List.getElem?_eq_getElem hi, Option.getD_some]
  exact (List.perm_insertionSort (· ≤ ·) l).subset (List.getElem_mem hi)

/-- The middle of a sorted list is the largest number half of it reaches. -/
theorem le_middle_iff {l : List ℕ} (hl : l ≠ []) (v : ℕ) :
    v ≤ ((l.insertionSort (· ≤ ·))[(l.insertionSort (· ≤ ·)).length/2]?).getD 0 ↔
      HalfReached l v := by
  have hlen : (l.insertionSort (· ≤ ·)).length = l.length := List.length_insertionSort _ l
  have hpos : 0 < l.length := List.length_pos_iff.mpr hl
  have hi : (l.insertionSort (· ≤ ·)).length/2 < (l.insertionSort (· ≤ ·)).length := by omega
  rw [List.getElem?_eq_getElem hi, Option.getD_some,
    le_getElem_iff_countP (List.pairwise_insertionSort _ l) hi,
    (List.perm_insertionSort (· ≤ ·) l).countP_eq, hlen]
  rfl

end Middle
end Foskv.Generic
