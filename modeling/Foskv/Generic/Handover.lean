import Mathlib.Data.List.Infix

/-! Items that pass through a buffer: what has been put into it, what has been taken out of it and
what it holds. -/
namespace Foskv.Generic

structure Handover (α : Type*) where
  put : List α
  taken : List α
  held : List α
  deriving DecidableEq

namespace Handover

variable {α : Type*} {h : Handover α}

/-- Everything put in was taken out in that order or is still there. -/
def Conserved (h : Handover α) : Prop := h.taken ++ h.held = h.put

instance [DecidableEq α] (h : Handover α) : Decidable h.Conserved :=
  inferInstanceAs (Decidable (_ = _))

/-- Items are put in behind the others. -/
def give (h : Handover α) (items : List α) : Handover α :=
  { h with put := h.put ++ items, held := h.held ++ items }

/-- The first `k` items are taken out. -/
def take (h : Handover α) (k : ℕ) : Handover α :=
  { h with taken := h.taken ++ h.held.take k, held := h.held.drop k }

/-- The buffer is emptied and nobody gets its items. -/
def drop (h : Handover α) : Handover α := { h with held := [] }

@[simp] theorem conserved_give {items : List α} : (h.give items).Conserved ↔ h.Conserved := by
  simp [Conserved, give, ← List.append_assoc]

@[simp] theorem conserved_take {k : ℕ} : (h.take k).Conserved ↔ h.Conserved := by
  simp [Conserved, take]

@[simp] theorem conserved_drop : h.drop.Conserved ↔ h.taken = h.put := by
  simp [Conserved, drop]

/-- Items come out in the order in which they were put in, none twice. -/
theorem Conserved.taken_prefix (hc : h.Conserved) : h.taken <+: h.put := ⟨h.held,hc⟩

end Handover
end Foskv.Generic
