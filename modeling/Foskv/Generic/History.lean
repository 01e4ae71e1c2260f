import Foskv.Generic.Run

/-! History variables: a value kept beside the states of a run, which has no say in its steps. -/
namespace Foskv.Generic

variable {σ ι γ : Type*}

/-- The system with a value that `update` carries along. -/
def recording (step : σ → ι → Option σ) (update : σ → ι → σ → γ → γ) (w : σ × γ) (l : ι) :
    Option (σ × γ) :=
  (step w.1 l).map fun s' => (s',update w.1 l s' w.2)

section Runs
variable {step : σ → ι → Option σ} {update : σ → ι → σ → γ → γ} {w w' : σ × γ} {l : ι}

theorem recording_eq_some : recording step update w l = some w' ↔
    step w.1 l = some w'.1 ∧ w'.2 = update w.1 l w'.1 w.2 := by
  obtain ⟨s',g'⟩ := w'
  rw [recording, Option.map_eq_some_iff]
  constructor
  · rintro ⟨s,hs,heq⟩
    cases heq
    exact ⟨hs,rfl⟩
  · rintro ⟨hs,hg⟩
    exact ⟨s',hs,Prod.ext rfl hg.symm⟩

variable {ok : σ × γ → ι → Prop} {ok' : σ → ι → Prop} {init : σ} {g : γ} {ls : List ι}

/-- Without the recorded value a run is a run of the system. -/
theorem Run.forget (hok : ∀ w l, ok w l → ok' w.1 l)
    (h : Run (recording step update) ok (init,g) ls w) : Run step ok' init ls w.1 := by
  induction h with
  | nil => exact .nil
  | snoc before accepted next ih =>
    exact .snoc ih (hok _ _ accepted) (recording_eq_some.mp next).1

variable (update) in
/-- Every run can be recorded. -/
theorem Run.record {s : σ} (h : Run step ok' init ls s) (g : γ) :
    ∃ g', Run (recording step update) (fun w l => ok' w.1 l) (init,g) ls (s,g') := by
  induction h with
  | nil => exact ⟨g,.nil⟩
  | @snoc ls s l s' before accepted next ih =>
    obtain ⟨g',hr⟩ := ih
    exact ⟨update s l s' g',.snoc hr accepted (recording_eq_some.mpr ⟨next,rfl⟩)⟩

end Runs
end Foskv.Generic
