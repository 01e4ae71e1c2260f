import Mathlib.Data.List.Infix
import Mathlib.Data.List.Nodup

/-! Linearizability: what is seen of concurrent operations on an object, against the object that
executes them one after the other. -/
namespace Foskv.Generic

/-- What is seen of an operation: it is called, or it returns a response. -/
inductive Visible (ω ρ : Type*)
  | call (op : ω)
  | ret (op : ω) (response : ρ)

/-- Two elements of a list that is continued stand in the old part, on both sides or in the new
part. -/
theorem pair_sublist_append {α : Type*} {x y : α} {l l' : List α}
    (h : [x,y].Sublist (l ++ l')) :
    [x,y].Sublist l ∨ x ∈ l ∧ y ∈ l' ∨ [x,y].Sublist l' := by
  obtain ⟨l₁,l₂,heq,h₁,h₂⟩ := List.sublist_append_iff.mp h
  rcases l₁ with _ | ⟨a,_ | ⟨b,l₁⟩⟩
  · exact Or.inr (Or.inr (heq ▸ h₂))
  · simp only [List.cons_append, List.nil_append, List.cons.injEq] at heq
    obtain ⟨rfl,rfl⟩ := heq
    exact Or.inr (Or.inl ⟨List.singleton_sublist.mp h₁,List.singleton_sublist.mp h₂⟩)
  · simp only [List.cons_append, List.cons.injEq, List.nil_eq_append_iff] at heq
    obtain ⟨rfl,rfl,rfl,-⟩ := heq
    exact Or.inl h₁

section Histories
variable {ω ρ σ : Type*}

/-- Every operation is called once, and returns at most once, after its call. -/
inductive WellFormed : List (Visible ω ρ) → Prop
  | nil : WellFormed []
  | call {seen op} (before : WellFormed seen) (hnew : .call op ∉ seen) :
      WellFormed (seen ++ [.call op])
  | ret {seen op response} (before : WellFormed seen) (hcalled : .call op ∈ seen)
      (hnew : ∀ r, .ret op r ∉ seen) : WellFormed (seen ++ [.ret op response])

/-- Several operations that have not returned may return one after the other. -/
theorem WellFormed.rets {seen : List (Visible ω ρ)} (h : WellFormed seen) {done : List (ω × ρ)}
    (hnodup : (done.map Prod.fst).Nodup) (hcalled : ∀ d ∈ done, .call d.1 ∈ seen)
    (hnew : ∀ d ∈ done, ∀ r, .ret d.1 r ∉ seen) :
    WellFormed (seen ++ done.map fun d => .ret d.1 d.2) := by
  induction done using List.reverseRecOn with
  | nil => simpa using h
  | append_singleton done d ih =>
    rw [List.map_append, List.nodup_append] at hnodup
    rw [List.map_append, ← List.append_assoc]
    refine .ret (ih hnodup.1 ?_ ?_) ?_ fun r hr => ?_
    · exact fun d hd => hcalled d (List.mem_append_left _ hd)
    · exact fun d hd => hnew d (List.mem_append_left _ hd)
    · exact List.mem_append_left _ (hcalled d (by simp))
    · obtain hr | hr := List.mem_append.mp hr
      · exact hnew d (by simp) r hr
      · obtain ⟨d',hd',heq⟩ := List.mem_map.mp hr
        rw [Visible.ret.injEq] at heq
        exact hnodup.2.2 _ (List.mem_map_of_mem hd') _ (by simp) heq.1

variable (exec : ω → σ → σ × ρ) (init : σ)

/-- The object after some operations. -/
def after (ops : List ω) : σ := ops.foldl (fun st op => (exec op st).1) init

/-- What an operation returns after some others. -/
def answer (before : List ω) (op : ω) : ρ := (exec op (after exec init before)).2

/-- An order of operations that explains all responses and keeps the order of operations of which
one returned before the other was called. -/
structure Linearizes (seen : List (Visible ω ρ)) (order : List ω) : Prop where
  nodup : order.Nodup
  called : ∀ op ∈ order, .call op ∈ seen
  answered : ∀ op r, .ret op r ∈ seen →
    ∃ before, before ++ [op] <+: order ∧ r = answer exec init before op
  realTime : ∀ op r op', [.ret op r,.call op'].Sublist seen → op' ∈ order →
    [op,op'].Sublist order

/-- What is seen might be the object executing each operation between its call and its return. -/
def Linearizable (seen : List (Visible ω ρ)) : Prop :=
  WellFormed seen ∧ ∃ order, Linearizes exec init seen order

/-- Orders of operations that are decided one after the other: each continues all earlier ones,
the one with an operation is decided before it returns, and those decided at that time have no
operation called later. -/
structure Decides (seen : List (Visible ω ρ)) (decided : List ω → Prop) : Prop where
  nil : decided []
  comparable : ∀ {l l'}, decided l → decided l' → l <+: l' ∨ l' <+: l
  nodup : ∀ {l}, decided l → l.Nodup
  called : ∀ {l}, decided l → ∀ op ∈ l, .call op ∈ seen
  answered : ∀ {op r}, .ret op r ∈ seen →
    ∃ before, decided (before ++ [op]) ∧ r = answer exec init before op
  later : ∀ {op r op'}, [.ret op r,.call op'].Sublist seen → ∃ l, decided l ∧ op ∈ l ∧ op' ∉ l

/-- Finitely many demands that comparable lists meet are met by the prefixes of one of them. -/
theorem exists_covering {α β : Type*} {decided : List α → Prop} (hnil : decided [])
    (hcomp : ∀ {l l'}, decided l → decided l' → l <+: l' ∨ l' <+: l) {Q : β → List α → Prop}
    {xs : List β} (h : ∀ x ∈ xs, ∃ l, decided l ∧ Q x l) :
    ∃ l, decided l ∧ ∀ x ∈ xs, ∃ l', Q x l' ∧ l' <+: l := by
  induction xs with
  | nil => exact ⟨[],hnil,by simp⟩
  | cons x xs ih =>
    obtain ⟨l,hl,hall⟩ := ih fun x hx => h x (List.mem_cons_of_mem _ hx)
    obtain ⟨l₁,hl₁,hQ⟩ := h x List.mem_cons_self
    obtain hle | hle := hcomp hl hl₁
    · refine ⟨l₁,hl₁,List.forall_mem_cons.mpr ⟨⟨l₁,hQ,List.prefix_refl _⟩,fun y hy => ?_⟩⟩
      obtain ⟨l',hQ',hpre⟩ := hall y hy
      exact ⟨l',hQ',hpre.trans hle⟩
    · exact ⟨l,hl,List.forall_mem_cons.mpr ⟨⟨l₁,hQ,hle⟩,hall⟩⟩

variable {exec init} {seen : List (Visible ω ρ)} {decided : List ω → Prop}

/-- Operations that take effect in a decided order are linearizable. -/
theorem Decides.linearizes (h : Decides exec init seen decided) (hwf : WellFormed seen) :
    Linearizable exec init seen := by
  let explains : Visible ω ρ → List ω → Prop
    | .call _,_ => True
    | .ret op r,l => ∃ before, l = before ++ [op] ∧ r = answer exec init before op
  obtain ⟨order,horder,hall⟩ :=
    exists_covering (Q := explains) h.nil h.comparable fun x hx => by
      cases x with
      | call op => exact ⟨[],h.nil,trivial⟩
      | ret op r =>
        obtain ⟨before,hdec,hr⟩ := h.answered hx
        exact ⟨_,hdec,before,rfl,hr⟩
  refine ⟨hwf,order,h.nodup horder,h.called horder,?_,?_⟩
  · intro op r hop
    obtain ⟨_,⟨before,rfl,hr⟩,hpre⟩ := hall _ hop
    exact ⟨before,hpre,hr⟩
  · intro op r op' hsub hmem
    obtain ⟨l,hl,hop,hnot⟩ := h.later hsub
    obtain hpre | hpre := h.comparable horder hl
    · exact absurd (hpre.subset hmem) hnot
    · obtain ⟨more,rfl⟩ := hpre
      have hmore : op' ∈ more := (List.mem_append.mp hmem).resolve_left hnot
      exact (List.singleton_sublist.mpr hop).append (List.singleton_sublist.mpr hmore)

end Histories
end Foskv.Generic
