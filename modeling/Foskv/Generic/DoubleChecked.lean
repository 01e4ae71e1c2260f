import Foskv.Generic.Linearizability
import Foskv.Generic.Run
import Mathlib.Data.List.Perm.Basic
import Mathlib.Data.List.Sigma
import Mathlib.Logic.Function.Basic

/-! Double-checked locking: calls on an object behind a mutex, each of which first reads some of
the object's variables without the mutex and may leave at once. The stores of the call that holds
the mutex show one at a time and in any order. -/
namespace Foskv.Generic

variable {σ ι ν : Type*} {β : ν → Type*}

/-- An object behind a mutex. -/
structure Guarded (σ ι ν : Type*) (β : ν → Type*) where
  /-- What a call does under the mutex. -/
  step : σ → ι → Option σ
  /-- The variables that are also read without it. -/
  var : (v : ν) → σ → β v
  /-- The object with these values of the variables. -/
  load : ((v : ν) → β v) → σ → σ
  /-- What a call stores in the variables under the mutex. -/
  stores : σ → ι → List (Sigma β)
  /-- The reads of a call before it waits for the mutex, and when it leaves after one. -/
  checks : ι → List ((v : ν) × (β v → Bool))

/-- The variable after some stores. -/
def stored [DecidableEq ν] (stores : List (Sigma β)) (v : ν) (old : β v) : β v :=
  (stores.dlookup v).getD old

/-- Where a call stands: before its check `k`, in possession of the mutex, gone after a check, or
done. -/
inductive Place
  | checking (k : ℕ)
  | holding
  | left
  | done
  deriving DecidableEq, Repr

/-- The call with the mutex, the object it leaves and its stores that do not show yet. -/
structure Holder (σ : Type*) (β : ν → Type*) where
  call : ℕ
  next : σ
  pending : List (Sigma β)

inductive Moment
  | begins (call : ℕ)
  | ends (call : ℕ)
  deriving DecidableEq, Repr

/-- All calls in progress. `state` is the object as the last holder of the mutex left it. -/
structure Calls (σ ι : Type*) (β : ν → Type*) where
  state : σ
  shown : (v : ν) → β v
  holder : Option (Holder σ β)
  inputs : List ι
  place : ℕ → Place
  history : List Moment

inductive CallLabel (ι : Type*)
  | call (input : ι)
  | check (call : ℕ)
  | lock (call : ℕ)
  | store (k : ℕ)
  | unlock

namespace Guarded

variable [DecidableEq ν] (G : Guarded σ ι ν β)

/-- What makes the early checks sound: a call that leaves after one would change nothing. -/
structure Sound : Prop where
  load_var : ∀ s, G.load (fun v => G.var v s) s = s
  distinct : ∀ s i, ((G.stores s i).map Sigma.fst).Nodup
  stored : ∀ {s i s'}, G.step s i = some s' →
    ∀ v, G.var v s' = stored (G.stores s i) v (G.var v s)
  idle : ∀ {s i check}, check ∈ G.checks i → check.2 (G.var check.1 s) = true →
    G.step s i = some s

def start (s : σ) : Calls σ ι β where
  state := s
  shown v := G.var v s
  holder := none
  inputs := []
  place _ := .checking 0
  history := []

def next (f : Calls σ ι β) : CallLabel ι → Option (Calls σ ι β)
  | .call i => some { f with
      inputs := f.inputs ++ [i]
      history := f.history ++ [.begins f.inputs.length] }
  | .check c =>
    match f.inputs[c]?,f.place c with
    | some i,.checking k =>
      match (G.checks i)[k]? with
      | some check =>
        if check.2 (f.shown check.1) then some { f with
          place := Function.update f.place c .left
          history := f.history ++ [.ends c] }
        else some { f with place := Function.update f.place c (.checking (k + 1)) }
      | none => none
    | _,_ => none
  | .lock c =>
    match f.inputs[c]?,f.holder with
    | some i,none =>
      if f.place c = .checking (G.checks i).length then
        (G.step (G.load f.shown f.state) i).map fun s' => { f with
          holder := some ⟨c,s',G.stores (G.load f.shown f.state) i⟩
          place := Function.update f.place c .holding }
      else none
    | _,_ => none
  | .store k =>
    match f.holder with
    | some holder =>
      match holder.pending[k]? with
      | some store => some { f with
          shown := Function.update f.shown store.1 store.2
          holder := some { holder with pending := holder.pending.eraseIdx k } }
      | none => none
    | none => none
  | .unlock =>
    match f.holder with
    | some holder =>
      if holder.pending.isEmpty then some { f with
        state := holder.next
        holder := none
        place := Function.update f.place holder.call .done
        history := f.history ++ [.ends holder.call] }
      else none
    | none => none

/-- What each label does. -/
inductive Moves (f : Calls σ ι β) : CallLabel ι → Calls σ ι β → Prop
  | call (i : ι) : Moves f (.call i) { f with
      inputs := f.inputs ++ [i]
      history := f.history ++ [.begins f.inputs.length] }
  | leaves {c i k check} (input : f.inputs[c]? = some i) (place : f.place c = .checking k)
      (hcheck : check ∈ G.checks i) (leave : check.2 (f.shown check.1) = true) :
      Moves f (.check c) { f with
        place := Function.update f.place c .left
        history := f.history ++ [.ends c] }
  | passes {c i k} (input : f.inputs[c]? = some i) (place : f.place c = .checking k) :
      Moves f (.check c) { f with place := Function.update f.place c (.checking (k + 1)) }
  | locks {c i k s'} (input : f.inputs[c]? = some i) (free : f.holder = none)
      (place : f.place c = .checking k) (next : G.step (G.load f.shown f.state) i = some s') :
      Moves f (.lock c) { f with
        holder := some ⟨c,s',G.stores (G.load f.shown f.state) i⟩
        place := Function.update f.place c .holding }
  | stores {holder k store} (held : f.holder = some holder)
      (hstore : holder.pending[k]? = some store) : Moves f (.store k) { f with
        shown := Function.update f.shown store.1 store.2
        holder := some { holder with pending := holder.pending.eraseIdx k } }
  | unlocks {holder} (held : f.holder = some holder) (hdone : holder.pending = []) :
      Moves f .unlock { f with
        state := holder.next
        holder := none
        place := Function.update f.place holder.call .done
        history := f.history ++ [.ends holder.call] }

variable {G} {f f' : Calls σ ι β}

theorem moves_of_next {l : CallLabel ι} (h : G.next f l = some f') : G.Moves f l f' := by
  cases l with
  | call i =>
    cases h
    exact .call i
  | check c =>
    rw [next] at h
    split at h
    · rename_i i k hinput hplace
      split at h
      · rename_i check hcheck
        split_ifs at h with hleave
        · cases h
          exact .leaves hinput hplace (List.mem_of_getElem? hcheck) hleave
        · cases h
          exact .passes hinput hplace
      · cases h
    · cases h
  | lock c =>
    rw [next] at h
    split at h
    · rename_i i hinput hfree
      split_ifs at h with hplace
      obtain ⟨s',hs,rfl⟩ := Option.map_eq_some_iff.mp h
      exact .locks hinput hfree hplace hs
    · cases h
  | store k =>
    rw [next] at h
    split at h
    · rename_i holder hheld
      split at h
      · rename_i store hstore
        cases h
        exact .stores hheld hstore
      · cases h
    · cases h
  | unlock =>
    rw [next] at h
    split at h
    · rename_i holder hheld
      split_ifs at h with hdone
      cases h
      exact .unlocks hheld (List.isEmpty_iff.mp hdone)
    · cases h

end Guarded

/-- The call has not been decided yet: it may leave, or take the mutex. -/
def Place.waits : Place → Bool
  | .checking _ => true
  | _ => false

theorem stored_of_mem [DecidableEq ν] {pending : List (Sigma β)} {store : Sigma β}
    (hnodup : (pending.map Sigma.fst).Nodup) (h : store ∈ pending) (old : β store.1) :
    stored pending store.1 old = store.2 := by
  rw [stored, Option.mem_def.mp ((List.mem_dlookup_iff hnodup).mpr h)]
  rfl

/-- Showing one of the stores leaves the others to show. -/
theorem stored_eraseIdx [DecidableEq ν] {pending : List (Sigma β)} {store : Sigma β} {k : ℕ}
    (hnodup : (pending.map Sigma.fst).Nodup) (hk : pending[k]? = some store)
    (shown : (v : ν) → β v) (v : ν) :
    stored (pending.eraseIdx k) v (Function.update shown store.1 store.2 v) =
      stored pending v (shown v) := by
  obtain ⟨hlt,rfl⟩ := List.getElem?_eq_some_iff.mp hk
  have hperm := List.getElem_cons_eraseIdx_perm hlt
  have hkeys := (hperm.map Sigma.fst).nodup_iff.mpr hnodup
  have hsame : pending.dlookup v = (pending[k] :: pending.eraseIdx k).dlookup v :=
    List.perm_dlookup v hnodup hperm.symm
  rw [stored, stored, hsame]
  by_cases hv : v = pending[k].1
  · subst hv
    have hnone : (pending.eraseIdx k).dlookup pending[k].1 = none :=
      List.dlookup_eq_none.mpr (List.nodup_cons.mp hkeys).1
    rw [hnone, Function.update_self, List.dlookup_cons_eq]
    rfl
  · rw [Function.update_of_ne hv, List.dlookup_cons_ne _ _ hv]

namespace Calls

/-- The object as the call with the mutex will leave it. -/
def settled (f : Calls σ ι β) : σ := (f.holder.map Holder.next).getD f.state

def current (f : Calls σ ι β) : List ℕ := f.holder.toList.map Holder.call

end Calls

namespace Guarded
variable (G : Guarded σ ι ν β)

/-- Calls taken one after the other; those that left after a check change nothing. -/
inductive Sequence (inputs : List ι) (place : ℕ → Place) (init : σ) : List ℕ → σ → Prop
  | nil : Sequence inputs place init [] init
  | snoc {order s c i s'} (before : Sequence inputs place init order s)
      (input : inputs[c]? = some i) (next : G.step s i = some s')
      (idle : place c = .left → s' = s) : Sequence inputs place init (order ++ [c]) s'

/-- An order of the calls that have been decided, each of which is taken as one step; one that
ended before another began comes before it, unless both left after a check. -/
structure Atomic (init : σ) (f : Calls σ ι β) (order : List ℕ) : Prop where
  sequence : G.Sequence f.inputs f.place init order f.settled
  nodup : order.Nodup
  decided : ∀ c, c ∈ order ↔ (f.place c).waits = false
  realTime : ∀ c d, [.ends c,.begins d].Sublist f.history → d ∈ order →
    (f.place c = .left → f.place d ≠ .left) → [c,d].Sublist order

/-- What is known while a call holds the mutex. `after` are the calls that left on what it has
stored. -/
structure Held (f : Calls σ ι β) (holder : Holder σ β) (after : List ℕ) [DecidableEq ν] :
    Prop where
  place : f.place holder.call = .holding
  next : ∃ i, f.inputs[holder.call]? = some i ∧ G.step f.state i = some holder.next
  distinct : (holder.pending.map Sigma.fst).Nodup
  pending : ∀ v, stored holder.pending v (f.shown v) = G.var v holder.next
  shown : ∀ v, f.shown v = G.var v f.state ∨ f.shown v = G.var v holder.next
  idle : ∀ c ∈ after, ∃ i, f.inputs[c]? = some i ∧ G.step holder.next i = some holder.next

/-- The order so far: what lies before the call with the mutex, and what left after its stores. -/
structure Ordered (init : σ) (f : Calls σ ι β) (before after : List ℕ) [DecidableEq ν] :
    Prop where
  sequence : G.Sequence f.inputs f.place init before f.state
  held : ∀ holder ∈ f.holder, G.Held f holder after
  free : f.holder = none → after = [] ∧ f.shown = fun v => G.var v f.state
  nodup : (before ++ (f.current ++ after)).Nodup
  decided : ∀ c, c ∈ before ++ (f.current ++ after) ↔ (f.place c).waits = false
  done : ∀ c, f.place c = .done → c ∈ before
  unborn : ∀ c, f.inputs.length ≤ c → (f.place c).waits
  ended : ∀ c, .ends c ∈ f.history → f.place c = .left ∨ f.place c = .done
  realTime : ∀ c d, [.ends c,.begins d].Sublist f.history →
    d ∈ before ++ (f.current ++ after) → (f.place c = .left → f.place d ≠ .left) →
      [c,d].Sublist (before ++ (f.current ++ after))

variable {G} {inputs inputs' : List ι} {place place' : ℕ → Place} {init s : σ}
  {order : List ℕ}

/-- Later calls, and places that change without leaving, do not matter. -/
theorem Sequence.congr (h : G.Sequence inputs place init order s)
    (hinputs : ∀ (c : ℕ) (i : ι), inputs[c]? = some i → inputs'[c]? = some i)
    (hplace : ∀ c ∈ order, place' c = .left → place c = .left) :
    G.Sequence inputs' place' init order s := by
  induction h with
  | nil => exact .nil
  | snoc _ input next idle ih =>
    refine .snoc (ih fun c hc => hplace c (List.mem_append_left _ hc)) (hinputs _ _ input) next ?_
    exact fun hleft => idle (hplace _ (by simp) hleft)

/-- Calls that would change nothing can follow. -/
theorem Sequence.idles (h : G.Sequence inputs place init order s) {after : List ℕ}
    (hidle : ∀ c ∈ after, ∃ i, inputs[c]? = some i ∧ G.step s i = some s) :
    G.Sequence inputs place init (order ++ after) s := by
  induction after using List.reverseRecOn with
  | nil => simpa using h
  | append_singleton after c ih =>
    obtain ⟨i,hi,hstep⟩ := hidle c (by simp)
    rw [← List.append_assoc]
    exact .snoc (ih fun d hd => hidle d (List.mem_append_left _ hd)) hi hstep fun _ => rfl

variable [DecidableEq ν] {f f' : Calls σ ι β} {before after : List ℕ} {c : ℕ} {i : ι}

theorem Held.congr {holder : Holder σ β} (h : G.Held f holder after)
    (hinputs : ∀ (d : ℕ) (j : ι), f.inputs[d]? = some j → f'.inputs[d]? = some j)
    (hplace : f'.place holder.call = .holding) (hstate : f'.state = f.state)
    (hshown : f'.shown = f.shown) : G.Held f' holder after where
  place := hplace
  next := by
    obtain ⟨i,hi,hstep⟩ := h.next
    exact ⟨i,hinputs _ _ hi,hstate ▸ hstep⟩
  distinct := h.distinct
  pending v := hshown ▸ h.pending v
  shown v := hstate ▸ hshown ▸ h.shown v
  idle d hd := by
    obtain ⟨j,hj,hstep⟩ := h.idle d hd
    exact ⟨j,hinputs _ _ hj,hstep⟩

namespace Ordered
variable (h : G.Ordered init f before after)
include h

/-- The whole order takes the object to where the call with the mutex leaves it. -/
theorem full : G.Sequence f.inputs f.place init (before ++ (f.current ++ after)) f.settled := by
  cases hholder : f.holder with
  | none =>
    obtain ⟨rfl,-⟩ := h.free hholder
    simpa [Calls.current, Calls.settled, hholder] using h.sequence
  | some holder =>
    have hheld := h.held holder hholder
    obtain ⟨i,hi,hstep⟩ := hheld.next
    have hsnoc : G.Sequence f.inputs f.place init (before ++ [holder.call]) holder.next :=
      .snoc h.sequence hi hstep fun hleft => nomatch hheld.place.symm.trans hleft
    simpa [Calls.current, Calls.settled, hholder] using hsnoc.idles hheld.idle

theorem atomic : G.Atomic init f (before ++ (f.current ++ after)) :=
  ⟨h.full,h.nodup,h.decided,h.realTime⟩

/-- A new call begins. -/
theorem call (i : ι) : G.Ordered init { f with
    inputs := f.inputs ++ [i]
    history := f.history ++ [.begins f.inputs.length] } before after where
  sequence := h.sequence.congr (fun c i hc => List.getElem?_append_left
    (List.getElem?_eq_some_iff.mp hc).1 ▸ hc) fun c _ hc => hc
  held holder hholder := (h.held holder hholder).congr (fun d j hd => List.getElem?_append_left
    (List.getElem?_eq_some_iff.mp hd).1 ▸ hd) (h.held holder hholder).place rfl rfl
  free := h.free
  nodup := h.nodup
  decided := h.decided
  done := h.done
  unborn c hc := h.unborn c (by rw [List.length_append] at hc; omega)
  ended c hc := h.ended c (by simpa using hc)
  realTime c d hsub hd hleft := by
    obtain hold | ⟨-,hnew⟩ | hnew := pair_sublist_append hsub
    · exact h.realTime c d hold hd hleft
    · rw [List.mem_singleton, Moment.begins.injEq] at hnew
      have hwaits := h.unborn d hnew.ge
      rw [(h.decided d).mp hd] at hwaits
      cases hwaits
    · exact absurd hnew.length_le (by simp)

/-- A check is passed. -/
theorem passes {k : ℕ} (hplace : f.place c = .checking k) (hinput : f.inputs[c]? = some i) :
    G.Ordered init { f with place := Function.update f.place c (.checking (k + 1)) }
      before after := by
  have hkeep : ∀ p q, q.waits = false →
      (Function.update f.place c (.checking (k + 1)) p = q ↔ f.place p = q) := by
    intro p q hq
    by_cases hp : p = c
    · subst hp
      rw [Function.update_self, hplace]
      constructor <;> (rintro rfl; cases hq)
    · rw [Function.update_of_ne hp]
  have hwaits : ∀ p, (Function.update f.place c (.checking (k + 1)) p).waits =
      (f.place p).waits := by
    intro p
    by_cases hp : p = c
    · subst hp
      rw [Function.update_self, hplace]
      rfl
    · rw [Function.update_of_ne hp]
  exact {
    sequence := h.sequence.congr (fun _ _ hc => hc) fun p _ hp => (hkeep p .left rfl).mp hp
    held := fun holder hholder => (h.held holder hholder).congr (fun _ _ hc => hc)
      ((hkeep _ .holding rfl).mpr (h.held holder hholder).place) rfl rfl
    free := h.free
    nodup := h.nodup
    decided := fun p => (h.decided p).trans (by rw [hwaits])
    done := fun p hp => h.done p ((hkeep p .done rfl).mp hp)
    unborn := fun p hp => (hwaits p).trans (h.unborn p hp)
    ended := fun p hp => (h.ended p hp).imp (hkeep p .left rfl).mpr (hkeep p .done rfl).mpr
    realTime := fun p d hsub hd hleft => h.realTime p d hsub hd fun hp hd' =>
      hleft ((hkeep p .left rfl).mpr hp) ((hkeep d .left rfl).mpr hd') }

/-- One of the holder's stores shows. -/
theorem stores {holder : Holder σ β} {k : ℕ} {store : Sigma β} (hheld : f.holder = some holder)
    (hstore : holder.pending[k]? = some store) : G.Ordered init { f with
      shown := Function.update f.shown store.1 store.2
      holder := some { holder with pending := holder.pending.eraseIdx k } } before after := by
  have hold := h.held holder hheld
  have hcurrent : f.current = [holder.call] := by simp [Calls.current, hheld]
  have hshow := stored_eraseIdx hold.distinct hstore f.shown
  have hholder : G.Held { f with
      shown := Function.update f.shown store.1 store.2
      holder := some { holder with pending := holder.pending.eraseIdx k } }
      { holder with pending := holder.pending.eraseIdx k } after := {
    place := hold.place
    next := hold.next
    distinct := ((List.eraseIdx_sublist _ _).map _).nodup hold.distinct
    pending := fun v => (hshow v).trans (hold.pending v)
    shown := fun v => by
      by_cases hv : v = store.1
      · subst hv
        right
        rw [← hold.pending store.1, stored_of_mem hold.distinct (List.mem_of_getElem? hstore)]
        exact Function.update_self _ _ _
      · dsimp only
        rw [Function.update_of_ne hv]
        exact hold.shown v
    idle := hold.idle }
  have hcurrent' : Calls.current { f with
      shown := Function.update f.shown store.1 store.2
      holder := some { holder with pending := holder.pending.eraseIdx k } } = f.current := by
    rw [hcurrent]
    rfl
  exact { h with
    held := fun holder' hmem => by
      cases hmem
      exact hholder
    free := nofun
    nodup := hcurrent' ▸ h.nodup
    decided := hcurrent' ▸ h.decided
    realTime := hcurrent' ▸ h.realTime }

omit h in
/-- Two orders of the calls differ by one call that is decided now. -/
theorem decided_update {place : ℕ → Place} {q : Place} (hq : q.waits = false)
    {order order' : List ℕ} (hdecided : ∀ p, p ∈ order ↔ (place p).waits = false)
    (hmem : ∀ p, p ∈ order' ↔ p = c ∨ p ∈ order) (p : ℕ) :
    p ∈ order' ↔ (Function.update place c q p).waits = false := by
  rw [hmem, hdecided]
  by_cases hp : p = c
  · subst hp
    simp [hq]
  · rw [Function.update_of_ne hp, or_iff_right hp]

omit h in
/-- A place other than the new one is an old one. -/
theorem place_eq_of_update {place : ℕ → Place} {q q' : Place} {p : ℕ} (hne : q ≠ q')
    (hp : Function.update place c q p = q') : p ≠ c ∧ place p = q' := by
  have hpc : p ≠ c := by
    rintro rfl
    exact hne ((Function.update_self _ _ _).symm.trans hp)
  exact ⟨hpc,(Function.update_of_ne hpc _ _).symm.trans hp⟩

theorem unborn_update (q : Place) (hinput : f.inputs[c]? = some i) (p : ℕ)
    (hp : f.inputs.length ≤ p) : (Function.update f.place c q p).waits := by
  have hlt := (List.getElem?_eq_some_iff.mp hinput).1
  rw [Function.update_of_ne (by omega)]
  exact h.unborn p hp

/-- A call that has ended has been decided. -/
theorem ended_mem (hended : .ends c ∈ f.history) : c ∈ before ++ (f.current ++ after) := by
  rw [h.decided]
  obtain hplace | hplace := h.ended c hended <;> rw [hplace] <;> rfl

theorem ended_ne {d k : ℕ} (hended : .ends d ∈ f.history) (hplace : f.place c = .checking k) :
    d ≠ c := by
  rintro rfl
  obtain hd | hd := h.ended d hended <;> exact nomatch hplace.symm.trans hd

/-- A call takes the mutex. -/
theorem locks {k : ℕ} {s' : σ} (hG : G.Sound) (hinput : f.inputs[c]? = some i)
    (hfree : f.holder = none) (hplace : f.place c = .checking k)
    (hnext : G.step (G.load f.shown f.state) i = some s') : G.Ordered init { f with
      holder := some ⟨c,s',G.stores (G.load f.shown f.state) i⟩
      place := Function.update f.place c .holding } before [] := by
  obtain ⟨rfl,hshown⟩ := h.free hfree
  rw [hshown, hG.load_var] at hnext ⊢
  have horder : before ++ (f.current ++ []) = before := by simp [Calls.current, hfree]
  have hnot : c ∉ before ++ (f.current ++ []) := by
    rw [h.decided, hplace]
    exact Bool.noConfusion
  have hold : ∀ p ≠ c, Function.update f.place c .holding p = f.place p :=
    fun p hp => Function.update_of_ne hp _ _
  exact {
    sequence := h.sequence.congr (fun _ _ hc => hc) fun p _ hp =>
      (place_eq_of_update (by decide) hp).2
    held := fun holder hholder => by
      cases hholder
      exact {
        place := Function.update_self _ _ _
        next := ⟨i,hinput,hnext⟩
        distinct := hG.distinct _ _
        pending := fun v => (hG.stored hnext v).symm
        shown := fun v => Or.inl rfl
        idle := fun _ hd => absurd hd List.not_mem_nil }
    free := nofun
    nodup := by
      rw [horder] at hnot
      have hnodup := h.nodup
      rw [horder] at hnodup
      refine List.nodup_append.mpr ⟨hnodup,List.nodup_singleton c,?_⟩
      intro a ha b hb hab
      have hbc : b = c := List.mem_singleton.mp hb
      exact hnot (hbc ▸ hab ▸ ha)
    decided := decided_update rfl h.decided fun p => by
      rw [horder]
      simp [Calls.current, or_comm]
    done := fun p hp => h.done p (place_eq_of_update (by decide) hp).2
    unborn := h.unborn_update .holding hinput
    ended := fun p hp => by
      dsimp only
      rw [hold p (h.ended_ne hp hplace)]
      exact h.ended p hp
    realTime := fun p d hsub hd hleft => by
      have hp : .ends p ∈ f.history := hsub.subset List.mem_cons_self
      have hbefore := h.ended_mem hp
      obtain hd | hd := List.mem_append.mp hd
      · have hdc : d ≠ c := fun hdc => hnot (horder.symm ▸ hdc ▸ hd)
        dsimp only at hleft
        rw [hold p (h.ended_ne hp hplace), hold d hdc] at hleft
        have hsub' := h.realTime p d hsub (horder.symm ▸ hd) hleft
        rw [horder] at hsub'
        exact hsub'.trans (List.sublist_append_left _ _)
      · rw [horder] at hbefore
        obtain rfl : d = c := by simpa [Calls.current] using hd
        exact (List.singleton_sublist.mpr hbefore).append (List.singleton_sublist.mpr hd) }

/-- The call with the mutex is done. -/
theorem unlocks {holder : Holder σ β} (hheld : f.holder = some holder)
    (hdone : holder.pending = []) : G.Ordered init { f with
      state := holder.next
      holder := none
      place := Function.update f.place holder.call .done
      history := f.history ++ [.ends holder.call] } (before ++ (f.current ++ after)) [] := by
  have hold := h.held holder hheld
  obtain ⟨i,hi,-⟩ := hold.next
  have hcall : holder.call ∈ before ++ (f.current ++ after) := by
    rw [h.decided, hold.place]
    rfl
  have hkeep : ∀ p ≠ holder.call, Function.update f.place holder.call .done p = f.place p :=
    fun p hp => Function.update_of_ne hp _ _
  have hleft : ∀ p, Function.update f.place holder.call .done p = .left ↔
      f.place p = .left := by
    intro p
    by_cases hp : p = holder.call
    · subst hp
      rw [Function.update_self, hold.place]
      exact iff_of_false nofun nofun
    · rw [hkeep p hp]
  have horder : (before ++ (f.current ++ after)) ++ (Calls.current { f with
      state := holder.next
      holder := none
      place := Function.update f.place holder.call .done
      history := f.history ++ [.ends holder.call] } ++ []) =
      before ++ (f.current ++ after) := by simp [Calls.current]
  exact {
    sequence := by
      have hfull := h.full
      rw [Calls.settled, hheld] at hfull
      exact hfull.congr (fun _ _ hc => hc) fun p _ => (hleft p).mp
    held := nofun
    free := fun _ => by
      refine ⟨rfl,funext fun v => ?_⟩
      have hpending := hold.pending v
      rw [hdone] at hpending
      exact hpending
    nodup := horder.symm ▸ h.nodup
    decided := decided_update rfl h.decided fun p => by
      rw [horder, or_iff_right_of_imp]
      rintro rfl
      exact hcall
    done := fun p hp => by
      by_cases hpc : p = holder.call
      · exact hpc ▸ hcall
      · dsimp only at hp
        rw [hkeep p hpc] at hp
        exact List.mem_append_left _ (h.done p hp)
    unborn := h.unborn_update .done hi
    ended := fun p hp => by
      by_cases hpc : p = holder.call
      · exact Or.inr (hpc ▸ Function.update_self _ _ _)
      · dsimp only
        rw [hkeep p hpc]
        exact h.ended p (by simpa [hpc] using hp)
    realTime := fun p d hsub hd hlate => by
      dsimp only at hlate
      rw [hleft, Ne, hleft] at hlate
      rw [horder] at hd ⊢
      obtain hsub | ⟨-,hnew⟩ | hnew := pair_sublist_append hsub
      · exact h.realTime p d hsub hd hlate
      · simp at hnew
      · exact absurd hnew.length_le (by simp) }

/-- A call leaves after a check, at a place of the order where it would change nothing. -/
theorem leaves_at {k : ℕ} {before' after' : List ℕ} (hinput : f.inputs[c]? = some i)
    (hplace : f.place c = .checking k)
    (hsequence : G.Sequence f.inputs (Function.update f.place c .left) init before' f.state)
    (hidle : ∀ holder ∈ f.holder, ∀ d ∈ after', ∃ j, f.inputs[d]? = some j ∧
      G.step holder.next j = some holder.next)
    (hfree : f.holder = none → after' = [])
    (hperm : (before' ++ (f.current ++ after')).Perm (c :: (before ++ (f.current ++ after))))
    (hsub : (before ++ (f.current ++ after)).Sublist (before' ++ (f.current ++ after')))
    (hdone : ∀ p ∈ before, p ∈ before' ∧ [p,c].Sublist (before' ++ (f.current ++ after'))) :
    G.Ordered init { f with
      place := Function.update f.place c .left
      history := f.history ++ [.ends c] } before' after' := by
  have hnot : c ∉ before ++ (f.current ++ after) := by
    rw [h.decided, hplace]
    exact Bool.noConfusion
  have hold : ∀ p ≠ c, Function.update f.place c .left p = f.place p :=
    fun p hp => Function.update_of_ne hp _ _
  exact {
    sequence := hsequence
    held := fun holder hholder => by
      have hheld := h.held holder hholder
      have hne : holder.call ≠ c := by
        intro hc
        exact nomatch (hc ▸ hheld.place).symm.trans hplace
      exact {
        place := (hold _ hne).trans hheld.place
        next := hheld.next
        distinct := hheld.distinct
        pending := hheld.pending
        shown := hheld.shown
        idle := hidle holder hholder }
    free := fun hnone => ⟨hfree hnone,(h.free hnone).2⟩
    nodup := hperm.nodup_iff.mpr (List.nodup_cons.mpr ⟨hnot,h.nodup⟩)
    decided := decided_update rfl h.decided fun p => by
      rw [← List.mem_cons]
      exact hperm.mem_iff
    done := fun p hp => (hdone p (h.done p (place_eq_of_update (by decide) hp).2)).1
    unborn := h.unborn_update .left hinput
    ended := fun p hp => by
      by_cases hpc : p = c
      · exact Or.inl (hpc ▸ Function.update_self _ _ _)
      · dsimp only
        rw [hold p hpc]
        exact h.ended p (by simpa [hpc] using hp)
    realTime := fun p d hpair hd hlate => by
      obtain hpair | ⟨-,hnew⟩ | hnew := pair_sublist_append hpair
      · have hp : .ends p ∈ f.history := hpair.subset List.mem_cons_self
        have hpc := h.ended_ne hp hplace
        dsimp only at hlate
        rw [hold p hpc] at hlate
        obtain rfl | hmem := List.mem_cons.mp (hperm.mem_iff.mp hd)
        · obtain hleft | hplace := h.ended p hp
          · exact absurd (Function.update_self _ _ _) (hlate hleft)
          · exact (hdone p (h.done p hplace)).2
        · have hdc : d ≠ c := by
            rintro rfl
            exact hnot hmem
          rw [hold d hdc] at hlate
          exact (h.realTime p d hpair hmem hlate).trans hsub
      · simp at hnew
      · exact absurd hnew.length_le (by simp) }

/-- A call leaves after a check: what it has read is a variable of the object as it was before
the call with the mutex, or as that call will leave it. -/
theorem leaves {k : ℕ} {check : (v : ν) × (β v → Bool)} (hG : G.Sound)
    (hinput : f.inputs[c]? = some i) (hplace : f.place c = .checking k)
    (hcheck : check ∈ G.checks i) (hleave : check.2 (f.shown check.1) = true) :
    ∃ before' after', G.Ordered init { f with
      place := Function.update f.place c .left
      history := f.history ++ [.ends c] } before' after' := by
  have hnot : ∀ p ∈ before, p ≠ c := by
    rintro p hp rfl
    have hwaits := (h.decided p).mp (List.mem_append_left _ hp)
    rw [hplace] at hwaits
    cases hwaits
  have hsequence : G.Sequence f.inputs (Function.update f.place c .left) init before f.state :=
    h.sequence.congr (fun _ _ hd => hd) fun p hp hleft => by
      rwa [Function.update_of_ne (hnot p hp)] at hleft
  obtain hbefore | ⟨holder,hheld,hafter⟩ : check.2 (G.var check.1 f.state) = true ∨
      ∃ holder ∈ f.holder, check.2 (G.var check.1 holder.next) = true := by
    cases hholder : f.holder with
    | none =>
      rw [(h.free hholder).2] at hleave
      exact Or.inl hleave
    | some holder =>
      obtain hshown | hshown := (h.held holder hholder).shown check.1
      · exact Or.inl (hshown ▸ hleave)
      · exact Or.inr ⟨holder,rfl,hshown ▸ hleave⟩
  · refine ⟨before ++ [c],after,h.leaves_at hinput hplace
      (.snoc hsequence hinput (hG.idle hcheck hbefore) fun _ => rfl)
      (fun holder hholder => (h.held holder hholder).idle) (fun hnone => (h.free hnone).1)
      ?_ ?_ fun p hp => ⟨List.mem_append_left _ hp,?_⟩⟩
    · rw [List.append_assoc]
      exact List.perm_middle
    · exact (List.sublist_append_left _ _).append (List.Sublist.refl _)
    · rw [List.append_assoc]
      exact (List.singleton_sublist.mpr hp).append (List.sublist_append_left [c] _)
  · refine ⟨before,after ++ [c],h.leaves_at hinput hplace hsequence
      (fun holder' hholder' d hd => ?_) (fun hnone => nomatch hnone.symm.trans hheld) ?_ ?_
      fun p hp => ⟨hp,?_⟩⟩
    · obtain rfl : holder = holder' := Option.some.inj (hheld.symm.trans hholder')
      obtain hd | hd := List.mem_append.mp hd
      · exact (h.held holder hheld).idle d hd
      · rw [List.mem_singleton.mp hd]
        exact ⟨i,hinput,hG.idle hcheck hafter⟩
    · rw [← List.append_assoc f.current, ← List.append_assoc before]
      exact List.perm_append_singleton _ _
    · exact (List.Sublist.refl _).append
        ((List.Sublist.refl _).append (List.sublist_append_left _ _))
    · refine (List.singleton_sublist.mpr hp).append (List.singleton_sublist.mpr ?_)
      simp

end Ordered

theorem Ordered.start (G : Guarded σ ι ν β) (s : σ) : G.Ordered s (G.start s) [] [] where
  sequence := .nil
  held := nofun
  free _ := ⟨rfl,rfl⟩
  nodup := List.nodup_nil
  decided c := by simp [Calls.current, Guarded.start, Place.waits]
  done c hc := nomatch hc
  unborn c _ := rfl
  ended c hc := absurd hc List.not_mem_nil
  realTime c d hsub _ _ := absurd hsub.length_le (by simp [Guarded.start])

theorem Ordered.next (hG : G.Sound) (h : G.Ordered init f before after) {l : CallLabel ι}
    (hn : G.next f l = some f') : ∃ before' after', G.Ordered init f' before' after' := by
  cases moves_of_next hn with
  | call i => exact ⟨_,_,h.call i⟩
  | leaves hinput hplace hcheck hleave => exact h.leaves hG hinput hplace hcheck hleave
  | passes hinput hplace => exact ⟨_,_,h.passes hplace hinput⟩
  | locks hinput hfree hplace hnext => exact ⟨_,_,h.locks hG hinput hfree hplace hnext⟩
  | stores hheld hstore => exact ⟨_,_,h.stores hheld hstore⟩
  | unlocks hheld hdone => exact ⟨_,_,h.unlocks hheld hdone⟩

/-- However calls interleave, each that has been decided is one step of the object. -/
theorem Sound.atomic (hG : G.Sound) {ok : Calls σ ι β → CallLabel ι → Prop}
    {labels : List (CallLabel ι)} (h : Run G.next ok (G.start s) labels f) :
    ∃ order, G.Atomic s f order := by
  have hordered : ∃ before after, G.Ordered s f before after := by
    apply Run.invariant (P := fun f => ∃ before after, G.Ordered s f before after) ?_ ?_ h
    · exact ⟨[],[],.start G s⟩
    · intro _ _ _ _ _ hf _ hn
      obtain ⟨_,_,hf⟩ := hf
      exact hf.next hG hn
  obtain ⟨before,after,hordered⟩ := hordered
  exact ⟨_,hordered.atomic⟩

end Guarded
end Foskv.Generic
