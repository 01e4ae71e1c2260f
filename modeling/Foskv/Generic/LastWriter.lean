import Mathlib.Data.List.Infix
import Mathlib.Logic.Function.Basic

/-! Changes of a store that give values to some of its keys, whatever was there before: of several
in a row the last writer of each key counts, so that running a part of them once more before all
of them makes no difference. -/
namespace Foskv.Generic

variable {κ ν α : Type*}

/-- The change gives the keys of some assignment its values and leaves the others alone. -/
def Assigns (f : (κ → ν) → κ → ν) : Prop :=
  ∃ w : κ → Option ν, ∀ st k, f st k = (w k).getD (st k)

namespace Assigns

variable {f g : (κ → ν) → κ → ν}

theorem id : Assigns (id : (κ → ν) → κ → ν) := ⟨fun _ => none,fun _ _ => rfl⟩

theorem update [DecidableEq κ] (k : κ) (v : ν) : Assigns fun st => Function.update st k v := by
  refine ⟨fun k' => if k' = k then some v else none,fun st k' => ?_⟩
  by_cases hk : k' = k
  · subst hk
    simp
  · simp [hk]

/-- The later assignment wins. -/
theorem comp (hg : Assigns g) (hf : Assigns f) : Assigns (g ∘ f) := by
  obtain ⟨w,hf⟩ := hf
  obtain ⟨w',hg⟩ := hg
  refine ⟨fun k => (w' k).or (w k),fun st k => ?_⟩
  change g (f st) k = ((w' k).or (w k)).getD (st k)
  rw [hg, hf]
  cases w' k <;> rfl

theorem idem (h : Assigns f) (st : κ → ν) : f (f st) = f st := by
  obtain ⟨w,hw⟩ := h
  funext k
  rw [hw (f st), hw st]
  cases w k <;> rfl

variable {step : (κ → ν) → α → κ → ν}

theorem foldl (h : ∀ a, Assigns fun st => step st a) (l : List α) :
    Assigns fun st => l.foldl step st := by
  induction l with
  | nil => exact id
  | cons a l ih => exact ih.comp (h a)

/-- Steps that are made again from the first one on absorb what was made of them before. -/
theorem foldl_prefix (h : ∀ a, Assigns fun st => step st a) {l m : List α} (hpre : l <+: m)
    (st : κ → ν) : m.foldl step (l.foldl step st) = m.foldl step st := by
  obtain ⟨rest,rfl⟩ := hpre
  rw [List.foldl_append, List.foldl_append, (foldl h l).idem st]

/-- Any number of beginnings is absorbed. -/
theorem foldl_prefixes (h : ∀ a, Assigns fun st => step st a) {m : List α} {begun : List (List α)}
    (hbegun : ∀ l ∈ begun, l <+: m) (st : κ → ν) :
    m.foldl step (begun.foldl (fun st l => l.foldl step st) st) = m.foldl step st := by
  induction begun generalizing st with
  | nil => rfl
  | cons l begun ih =>
    obtain ⟨hl,hbegun⟩ := List.forall_mem_cons.mp hbegun
    rw [List.foldl_cons, ih hbegun, foldl_prefix h hl]

end Assigns
end Foskv.Generic
