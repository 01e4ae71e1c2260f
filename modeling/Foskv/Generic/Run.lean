import Mathlib.Data.List.Induction

/-! Runs of a deterministic labelled transition system whose steps are all accepted by a
condition on the state before the step and its label. -/
namespace Foskv.Generic

variable {σ ι : Type*}

/-- The labels of a run in order, from `init` to the state it ends in. -/
inductive Run (step : σ → ι → Option σ) (ok : σ → ι → Prop) (init : σ) : List ι → σ → Prop
  | nil : Run step ok init [] init
  | snoc {ls s l s'} (before : Run step ok init ls s) (accepted : ok s l)
      (next : step s l = some s') : Run step ok init (ls ++ [l]) s'

namespace Run

variable {step : σ → ι → Option σ} {ok ok' : σ → ι → Prop} {init : σ}

/-- What holds at the start and survives every accepted step holds at the end of every run.
The step may use that its first state is itself the end of a run. -/
theorem invariant {P : σ → Prop} (h0 : P init)
    (hstep : ∀ {ls s l s'}, Run step ok init ls s → P s → ok s l → step s l = some s' → P s')
    {ls : List ι} {s : σ} (h : Run step ok init ls s) : P s := by
  induction h with
  | nil => exact h0
  | snoc before accepted next ih => exact hstep before ih accepted next

theorem mono (hok : ∀ s l, ok s l → ok' s l) {ls : List ι} {s : σ}
    (h : Run step ok init ls s) : Run step ok' init ls s := by
  induction h with
  | nil => exact .nil
  | snoc before accepted next ih => exact .snoc ih (hok _ _ accepted) next

/-- The last step of a run. -/
theorem snoc_inv {ls : List ι} {l : ι} {t : σ} (h : Run step ok init (ls ++ [l]) t) :
    ∃ s, Run step ok init ls s ∧ ok s l ∧ step s l = some t := by
  generalize hm : ls ++ [l] = ms at h
  cases h with
  | nil => simp at hm
  | @snoc ks s k _ before accepted next =>
    obtain ⟨rfl,hl⟩ := List.append_inj' hm rfl
    obtain rfl : l = k := by simpa using hl
    exact ⟨s,before,accepted,next⟩

/-- A run from where another one ends continues it. -/
theorem append {ls ms : List ι} {s t : σ} (h : Run step ok init ls s) (h' : Run step ok s ms t) :
    Run step ok init (ls ++ ms) t := by
  induction h' with
  | nil => simpa using h
  | snoc before accepted next ih => exact List.append_assoc ls _ _ ▸ ih.snoc accepted next

theorem cons {l : ι} {ls : List ι} {s t : σ} (hok : ok init l) (hstep : step init l = some s)
    (h : Run step ok s ls t) : Run step ok init (l :: ls) t :=
  (Run.nil.snoc hok hstep).append h

theorem nil_inv {t : σ} (h : Run step ok init [] t) : t = init := by
  generalize hm : ([] : List ι) = ms at h
  cases h with
  | nil => rfl
  | snoc before _ _ => simp at hm

/-- The labels determine the states. -/
theorem det {ls : List ι} {s t : σ} (h : Run step ok init ls s)
    (h' : Run step ok' init ls t) : s = t := by
  induction h generalizing t with
  | nil => exact (nil_inv h').symm
  | snoc before accepted next ih =>
    obtain ⟨u,hu,_,hn⟩ := snoc_inv h'
    obtain rfl := ih hu
    exact Option.some.inj (next.symm.trans hn)

/-- Every prefix of the labels of a run is a run. -/
theorem of_append {ls ms : List ι} {t : σ} (h : Run step ok init (ls ++ ms) t) :
    ∃ s, Run step ok init ls s := by
  induction ms using List.reverseRecOn generalizing t with
  | nil => exact ⟨t,by simpa using h⟩
  | append_singleton ms m ih =>
    rw [← List.append_assoc] at h
    obtain ⟨s,hs,-,-⟩ := snoc_inv h
    exact ih hs

/-- What every step keeps between a state and the states after it holds between two states of
one run. -/
theorem rel_of_append {R : σ → σ → Prop} (hrefl : ∀ s, R s s)
    (hstep : ∀ {r s l s'}, R r s → step s l = some s' → R r s') {ls ms : List ι} {s t : σ}
    (hs : Run step ok' init ls s) (h : Run step ok init (ls ++ ms) t) : R s t := by
  induction ms using List.reverseRecOn generalizing t with
  | nil =>
    rw [List.append_nil] at h
    exact det hs h ▸ hrefl s
  | append_singleton ms m ih =>
    rw [← List.append_assoc] at h
    obtain ⟨u,hu,-,hn⟩ := snoc_inv h
    exact hstep (ih hu) hn

/-- Where each accepted step of a system is matched by an accepted step of another one, or by none,
so are its runs by runs of the other. -/
theorem simulates {τ κ : Type*} {step' : τ → κ → Option τ} {okay : τ → κ → Prop} {init' : τ}
    {R : σ → τ → Prop} (h0 : R init init')
    (hstep : ∀ {s t l s'}, R s t → ok s l → step s l = some s' →
      R s' t ∨ ∃ k t', okay t k ∧ step' t k = some t' ∧ R s' t')
    {ls : List ι} {s : σ} (h : Run step ok init ls s) :
    ∃ ks t, Run step' okay init' ks t ∧ R s t := by
  induction h with
  | nil => exact ⟨[],init',.nil,h0⟩
  | snoc before accepted next ih =>
    obtain ⟨ks,t,hrun,hR⟩ := ih
    obtain hR | ⟨k,t',hok,hk,hR⟩ := hstep hR accepted next
    · exact ⟨ks,t,hrun,hR⟩
    · exact ⟨ks ++ [k],t',hrun.snoc hok hk,hR⟩

end Run

/-- Every state of the run of `ls` is good, and each is related to the later ones. -/
def Throughout (step : σ → ι → Option σ) (init : σ) (P : σ → Prop) (R : σ → σ → Prop)
    (ls : List ι) : Prop :=
  ∀ ks s, ks <+: ls → Run step (fun _ _ => True) init ks s → P s ∧
    ∀ js t, ks ++ js <+: ls → Run step (fun _ _ => True) init (ks ++ js) t → R s t

section Throughout
variable {step : σ → ι → Option σ} {ok : σ → ι → Prop} {init : σ} {P : σ → Prop}
  {R : σ → σ → Prop}

theorem Throughout.of_isPrefix {ks ls : List ι} (h : Throughout step init P R ls)
    (hpre : ks <+: ls) : Throughout step init P R ks := by
  intro js s hjs hs
  obtain ⟨hgood,hrel⟩ := h js s (hjs.trans hpre) hs
  exact ⟨hgood,fun is t hi => hrel is t (hi.trans hpre)⟩

/-- Where goodness and the relation decide each step from a good state, they hold throughout a
run exactly when every step of it is accepted. -/
theorem Run.throughout_iff (h0 : P init) (hrefl : ∀ s, R s s)
    (htrans : ∀ {r s t}, R r s → R s t → R r t)
    (hstep : ∀ {ls s l s'}, Run step ok init ls s → P s →
      step s l = some s' → (ok s l ↔ P s' ∧ R s s'))
    {ls : List ι} {t : σ} (h : Run step (fun _ _ => True) init ls t) :
    Throughout step init P R ls ↔ Run step ok init ls t := by
  constructor
  · intro hall
    induction h with
    | nil => exact .nil
    | @snoc ls s l s' before _ next ih =>
      have hpre : ls <+: ls ++ [l] := List.prefix_append _ _
      obtain ⟨hgood,hrel⟩ := hall ls s hpre before
      have hend := before.snoc trivial next
      have hbefore := ih (hall.of_isPrefix hpre)
      have hok := (hstep hbefore hgood next).mpr
        ⟨(hall _ s' (List.prefix_refl _) hend).1,hrel [l] s' (List.prefix_refl _) hend⟩
      exact hbefore.snoc hok next
  · intro hok
    have hgood : ∀ {ks s}, Run step ok init ks s → P s := fun hks =>
      Run.invariant h0 (fun hr hg hl hn => ((hstep hr hg hn).mp hl).1) hks
    have hrun : ∀ {ks s}, ks <+: ls → Run step (fun _ _ => True) init ks s →
        Run step ok init ks s := by
      rintro ks s ⟨js,rfl⟩ hs
      obtain ⟨u,hu⟩ := hok.of_append
      exact hs.det hu ▸ hu
    intro ks s hks hs
    refine ⟨hgood (hrun hks hs),fun js t hjs ht => ?_⟩
    have hsteps := hrun hjs ht
    clear hjs ht
    induction js using List.reverseRecOn generalizing t with
    | nil =>
      rw [List.append_nil] at hsteps
      exact hs.det hsteps ▸ hrefl s
    | append_singleton js l ih =>
      rw [← List.append_assoc] at hsteps
      obtain ⟨u,hu,hl,hn⟩ := hsteps.snoc_inv
      exact htrans (ih u hu) ((hstep hu (hgood hu) hn).mp hl).2

/-- What holds at the end of every accepted run and between the ends of every accepted step holds
throughout such a run. -/
theorem Run.throughout (hrefl : ∀ s, R s s) (htrans : ∀ {r s t}, R r s → R s t → R r t)
    (hgood : ∀ {ks s}, Run step ok init ks s → P s)
    (hrel : ∀ {ks s l s'}, Run step ok init ks s → ok s l → step s l = some s' → R s s')
    {ls : List ι} {t : σ} (h : Run step ok init ls t) : Throughout step init P R ls := by
  have hrun : ∀ {ks s}, ks <+: ls → Run step (fun _ _ => True) init ks s →
      Run step ok init ks s := by
    rintro ks s ⟨js,rfl⟩ hs
    obtain ⟨u,hu⟩ := h.of_append
    exact hs.det hu ▸ hu
  intro ks s hks hs
  refine ⟨hgood (hrun hks hs),fun js t hjs ht => ?_⟩
  have hsteps := hrun hjs ht
  clear hjs ht
  induction js using List.reverseRecOn generalizing t with
  | nil =>
    rw [List.append_nil] at hsteps
    exact hs.det hsteps ▸ hrefl s
  | append_singleton js l ih =>
    rw [← List.append_assoc] at hsteps
    obtain ⟨u,hu,hl,hn⟩ := hsteps.snoc_inv
    exact htrans (ih u hu) (hrel hu hl hn)

/-- The same for a property of states alone. -/
theorem Run.always_iff (h0 : P init)
    (hstep : ∀ {ls s l s'}, Run step ok init ls s → P s → step s l = some s' →
      (ok s l ↔ P s'))
    {ls : List ι} {t : σ} (h : Run step (fun _ _ => True) init ls t) :
    (∀ ks s, ks <+: ls → Run step (fun _ _ => True) init ks s → P s) ↔
      Run step ok init ls t := by
  rw [← Run.throughout_iff (R := fun _ _ => True) h0 (fun _ => trivial) (fun _ _ => trivial)
    (fun hr hp hn => (hstep hr hp hn).trans (and_iff_left trivial).symm) h]
  exact ⟨fun hall ks s hks hs => ⟨hall ks s hks hs,fun _ _ _ _ => trivial⟩,
    fun hall ks s hks hs => (hall ks s hks hs).1⟩

end Throughout

/-- Every step of the run of `ls` has the property. -/
def EveryStep (step : σ → ι → Option σ) (init : σ) (Q : σ → ι → σ → Prop) (ls : List ι) : Prop :=
  ∀ ks l s s', ks ++ [l] <+: ls → Run step (fun _ _ => True) init ks s → step s l = some s' →
    Q s l s'

/-- Where `ok'` decides the property of an accepted step, a run of accepted steps has it at every
step exactly when `ok'` accepts each of them too. -/
theorem Run.everyStep_iff {step : σ → ι → Option σ} {ok ok' : σ → ι → Prop} {init : σ}
    {Q : σ → ι → σ → Prop} (hstep : ∀ {ls s l s'}, Run step ok init ls s → ok s l →
      step s l = some s' → (Q s l s' ↔ ok' s l))
    {ls : List ι} {t : σ} (h : Run step ok init ls t) :
    EveryStep step init Q ls ↔ Run step (fun s l => ok s l ∧ ok' s l) init ls t := by
  induction h with
  | nil =>
    refine iff_of_true (fun ks l s s' hpre _ _ => ?_) .nil
    simp at hpre
  | @snoc ls s l s' before accepted next ih =>
    constructor
    · intro hall
      have hbefore := ih.mp fun ks k u u' hpre =>
        hall ks k u u' (hpre.trans (List.prefix_append _ _))
      refine hbefore.snoc ⟨accepted,(hstep before accepted next).mp ?_⟩ next
      exact hall ls l s s' (List.prefix_refl _) (before.mono fun _ _ _ => trivial) next
    · intro hrun ks k u u' hpre hks hk
      obtain ⟨v,hv,hl,hn⟩ := hrun.snoc_inv
      obtain heq | hpre := List.prefix_concat_iff.mp hpre
      · obtain ⟨rfl,hkl⟩ := List.append_inj' heq rfl
        obtain rfl : k = l := by simpa using hkl
        obtain rfl := hks.det before
        exact (hstep before accepted hk).mpr (hv.det before ▸ hl.2)
      · exact ih.mpr (hv.det before ▸ hv) ks k u u' hpre hks hk


/-- Execute a list of labels. -/
def exec (step : σ → ι → Option σ) : σ → List ι → Option σ
  | s,[] => some s
  | s,l::ls => (step s l).bind fun s' => exec step s' ls

/-- Every label of the list is accepted where it is taken. -/
def Accepted (step : σ → ι → Option σ) (ok : σ → ι → Prop) : σ → List ι → Prop
  | _,[] => True
  | s,l::ls => ok s l ∧ ∀ s' ∈ step s l, Accepted step ok s' ls

instance Accepted.decidable (step : σ → ι → Option σ) (ok : σ → ι → Prop)
    [∀ s l, Decidable (ok s l)] : ∀ s ls, Decidable (Accepted step ok s ls)
  | _,[] => .isTrue trivial
  | s,l::ls =>
    haveI := fun s' => Accepted.decidable step ok s' ls
    inferInstanceAs (Decidable (ok s l ∧ ∀ s' ∈ step s l, Accepted step ok s' ls))

section Exec
variable {step : σ → ι → Option σ} {ok : σ → ι → Prop} {init s t : σ} {ls ms : List ι}

theorem Run.exec_append (h : Run step ok init ls s) (ha : Accepted step ok s ms)
    (he : exec step s ms = some t) : Run step ok init (ls ++ ms) t := by
  induction ms generalizing ls s with
  | nil =>
    cases he
    simpa using h
  | cons m ms ih =>
    obtain ⟨u,hu,he⟩ := Option.bind_eq_some_iff.mp he
    simpa using ih (h.snoc ha.1 hu) (ha.2 u hu) he

/-- An execution whose labels are accepted is a run. -/
theorem Run.of_exec (ha : Accepted step ok init ls) (he : exec step init ls = some t) :
    Run step ok init ls t := by
  simpa using Run.nil.exec_append ha he

/-- Labels that can be executed and whose end passes a check are a run to such an end. -/
theorem Run.of_check {Q : σ → Prop} [DecidablePred Q] (ha : Accepted step ok init ls)
    (h : (exec step init ls).any (fun t => decide (Q t)) = true) :
    ∃ t, Run step ok init ls t ∧ Q t := by
  obtain ⟨t,he,hq⟩ := (Option.any_eq_true _ _).mp h
  exact ⟨t,.of_exec ha he,of_decide_eq_true hq⟩

end Exec

theorem accepted_of_forall {step : σ → ι → Option σ} {ok : σ → ι → Prop} (h : ∀ s l, ok s l)
    (s : σ) (ls : List ι) : Accepted step ok s ls := by
  induction ls generalizing s with
  | nil => trivial
  | cons l ls ih => exact ⟨h s l,fun s' _ => ih s'⟩

end Foskv.Generic
