import Foskv.Generic.Handover
import Foskv.Generic.Run
import Mathlib.Data.List.ReduceOption

/-! The queue of a session: producers push, one consumer pops and may wait, one call shuts it
down. Each stretch that a call runs under the mutex is one step. -/
namespace Foskv
open Generic

structure SpscQueue (α : Type) where
  queue : List α
  isShutdown : Bool
  deriving DecidableEq

namespace SpscQueue

variable {α : Type}

def empty : SpscQueue α := ⟨[],false⟩

def push (q : SpscQueue α) (value : α) : SpscQueue α := { q with queue := q.queue ++ [value] }

def shutdown (q : SpscQueue α) : SpscQueue α := { q with isShutdown := true }

/-- `pop` up to its return with an item, or up to its wait. -/
def pop (q : SpscQueue α) : Option (SpscQueue α × α) :=
  match q.queue with
  | [] => none
  | item::queue => some ({ q with queue := queue },item)

/-- `pop` after its wait: `kEmptySPSCQueue` is returned as soon as the queue is shut down. The
wait does not end before its predicate is true. -/
def popAwake (q : SpscQueue α) : Option (SpscQueue α × Option α) :=
  if q.isShutdown then some (q,none)
  else q.pop.map fun r => (r.1,some r.2)

inductive Label (α : Type)
  | push (value : α)
  /-- The consumer calls `pop`. -/
  | pop
  /-- Its wait returns. -/
  | wake
  | shutdown
  deriving DecidableEq

/-- A queue with its consumer: what was pushed, up to the shutdown too, and what each call of
`pop` has returned, `none` standing for `kEmptySPSCQueue`. -/
structure History (α : Type) where
  queue : SpscQueue α
  waiting : Bool
  pushed : List α
  pushedBefore : Option (List α)
  returned : List (Option α)
  deriving DecidableEq

namespace History

def start : History α := ⟨empty,false,[],none,[]⟩

def step (s : History α) : Label α → Option (History α)
  | .push value => some { s with queue := s.queue.push value, pushed := s.pushed ++ [value] }
  | .pop =>
    if s.waiting then none
    else
      match s.queue.pop with
      | none => some { s with waiting := true }
      | some (queue,item) => some { s with queue := queue, returned := s.returned ++ [some item] }
  | .wake =>
    if s.waiting then do
      let (queue,result) ← s.queue.popAwake
      return { s with queue := queue, waiting := false, returned := s.returned ++ [result] }
    else none
  | .shutdown => some { s with
      queue := s.queue.shutdown
      pushedBefore := s.pushedBefore.or (some s.pushed) }

def handover (s : History α) : Handover α := ⟨s.pushed,s.returned.reduceOption,s.queue.queue⟩

/-- The items returned are the first ones that were pushed, and `kEmptySPSCQueue` is returned only
when all that were pushed before the shutdown are among them. -/
def KeepsOrder (s : History α) : Prop :=
  s.returned.reduceOption <+: s.pushed ∧
  ∀ before after, s.returned = before ++ none :: after →
    ∃ items ∈ s.pushedBefore, items <+: before.reduceOption

/-- The queue is not shut down while `pop` waits and items have been pushed meanwhile. -/
def DrainedFirst (s : History α) (l : Label α) : Prop :=
  l = .shutdown → s.queue.isShutdown = false → s.waiting = true → s.queue.queue = []

instance [DecidableEq α] (s : History α) (l : Label α) : Decidable (s.DrainedFirst l) :=
  inferInstanceAs (Decidable (_ → _ → _ → _))

/-- What a step can do. -/
inductive Change (s : History α) : Label α → History α → Prop
  | pushed (value : α) : Change s (.push value)
      { s with queue := s.queue.push value, pushed := s.pushed ++ [value] }
  | suspended (hrun : s.waiting = false) (hq : s.queue.queue = []) :
      Change s .pop { s with waiting := true }
  | popped {l : Label α} {item : α} {queue : List α} (hq : s.queue.queue = item :: queue)
      (hl : l = .pop ∨ l = .wake) (hopen : s.waiting = true → s.queue.isShutdown = false) :
      Change s l { s with
        queue := { s.queue with queue := queue }
        waiting := false
        returned := s.returned ++ [some item] }
  | gaveUp (hwait : s.waiting = true) (hdown : s.queue.isShutdown = true) :
      Change s .wake { s with waiting := false, returned := s.returned ++ [none] }
  | shutdown : Change s .shutdown { s with
      queue := s.queue.shutdown
      pushedBefore := s.pushedBefore.or (some s.pushed) }

section Steps
variable {s s' : History α} {l : Label α} {item : α} {queue : List α}

theorem step_pop_nil (hrun : s.waiting = false) (hq : s.queue.queue = []) :
    s.step .pop = some { s with waiting := true } := by
  simp [step, hrun, SpscQueue.pop, hq]

theorem step_pop_cons (hrun : s.waiting = false) (hq : s.queue.queue = item :: queue) :
    s.step .pop = some { s with
      queue := { s.queue with queue := queue }
      returned := s.returned ++ [some item] } := by
  simp [step, hrun, SpscQueue.pop, hq]

theorem step_wake_shutdown (hwait : s.waiting = true) (hdown : s.queue.isShutdown = true) :
    s.step .wake = some { s with waiting := false, returned := s.returned ++ [none] } := by
  simp [step, hwait, popAwake, hdown]

theorem step_wake_cons (hwait : s.waiting = true) (hopen : s.queue.isShutdown = false)
    (hq : s.queue.queue = item :: queue) :
    s.step .wake = some { s with
      queue := { s.queue with queue := queue }
      waiting := false
      returned := s.returned ++ [some item] } := by
  simp [step, hwait, popAwake, hopen, SpscQueue.pop, hq]

theorem change_of_step (h : s.step l = some s') : Change s l s' := by
  cases l with
  | push value =>
    cases h
    exact .pushed value
  | pop =>
    cases hwait : s.waiting with
    | true => simp [step, hwait] at h
    | false =>
      cases hq : s.queue.queue with
      | nil =>
        rw [step_pop_nil hwait hq] at h
        cases h
        exact .suspended hwait hq
      | cons item queue =>
        rw [step_pop_cons hwait hq] at h
        cases h
        simpa only [hwait] using Change.popped (l := .pop) hq (.inl rfl) (by simp [hwait])
  | wake =>
    cases hwait : s.waiting with
    | false => simp [step, hwait] at h
    | true =>
      cases hdown : s.queue.isShutdown with
      | true =>
        rw [step_wake_shutdown hwait hdown] at h
        cases h
        exact .gaveUp hwait hdown
      | false =>
        cases hq : s.queue.queue with
        | nil => simp [step, hwait, popAwake, hdown, SpscQueue.pop, hq] at h
        | cons item queue =>
          rw [step_wake_cons hwait hdown hq] at h
          cases h
          exact .popped hq (.inr rfl) (fun _ => hdown)
  | shutdown =>
    cases h
    exact .shutdown

/-- The first shutdown decides what was pushed before. -/
theorem mem_or_some {before : Option (List α)} {pushed items : List α} :
    items ∈ before.or (some pushed) ↔ items ∈ before ∨ before = none ∧ pushed = items := by
  cases before <;> simp

/-- What every step keeps. -/
structure Sound (s : History α) : Prop where
  conserved : s.handover.Conserved
  open_iff : s.pushedBefore = none ↔ s.queue.isShutdown = false
  before : ∀ items ∈ s.pushedBefore, items <+: s.pushed

theorem Sound.step (hs : s.Sound) (h : s.step l = some s') : s'.Sound := by
  obtain ⟨hconserved,hopen,hbefore⟩ := hs
  cases change_of_step h with
  | pushed value =>
    have hgive : (s.handover.give [value]).Conserved := Handover.conserved_give.mpr hconserved
    exact ⟨hgive,hopen,fun items hi => (hbefore items hi).trans (List.prefix_append _ _)⟩
  | suspended => exact ⟨hconserved,hopen,hbefore⟩
  | popped hq hl hdown =>
    refine ⟨?_,hopen,hbefore⟩
    have htake : (s.handover.take 1).Conserved := Handover.conserved_take.mpr hconserved
    simpa [handover, Handover.take, hq, List.reduceOption_append] using htake
  | gaveUp =>
    refine ⟨?_,hopen,hbefore⟩
    simpa [handover, List.reduceOption_append] using hconserved
  | shutdown =>
    refine ⟨hconserved,iff_of_false ?_ (by simp [SpscQueue.shutdown]),fun items hi => ?_⟩
    · cases s.pushedBefore <;> simp
    · obtain hi | ⟨-,rfl⟩ := mem_or_some.mp hi
      · exact hbefore items hi
      · exact List.prefix_rfl

theorem Sound.start : (start : History α).Sound :=
  ⟨rfl,by simp [History.start, SpscQueue.empty],by simp [History.start]⟩

/-- Where a call that gave up stands among the calls with one more. -/
theorem split_concat {returned before after : List (Option α)} {result : Option α}
    (h : returned ++ [result] = before ++ none :: after) :
    (before = returned ∧ result = none) ∨ ∃ after', returned = before ++ none :: after' := by
  obtain rfl | ⟨after',last,rfl⟩ := after.eq_nil_or_concat
  · obtain ⟨rfl,hlast⟩ := List.append_inj' h rfl
    exact .inl ⟨rfl,by simpa using hlast⟩
  · rw [List.concat_eq_append, ← List.cons_append, ← List.append_assoc] at h
    exact .inr ⟨after',(List.append_inj' h rfl).1⟩

/-- Whoever waits on a queue that is shut down has all that was pushed before. -/
structure Ordered (s : History α) : Prop where
  waits : s.waiting = true → ∀ items ∈ s.pushedBefore, items <+: s.returned.reduceOption
  gaveUp : ∀ before after, s.returned = before ++ none :: after →
    ∃ items ∈ s.pushedBefore, items <+: before.reduceOption

theorem Ordered.step (ho : s.Ordered) (hs : s.Sound) (hdrained : s.DrainedFirst l)
    (h : s.step l = some s') : s'.Ordered := by
  have hconserved : s.returned.reduceOption ++ s.queue.queue = s.pushed := hs.conserved
  obtain ⟨hwaits,hgave⟩ := ho
  cases change_of_step h with
  | pushed value => exact ⟨hwaits,hgave⟩
  | suspended hrun hq =>
    refine ⟨fun _ items hi => ?_,hgave⟩
    rw [hq, List.append_nil] at hconserved
    change items <+: s.returned.reduceOption
    rw [hconserved]
    exact hs.before items hi
  | popped hq hl hopen =>
    refine ⟨nofun,fun before after hsplit => ?_⟩
    obtain ⟨_,hnone⟩ | ⟨after',hsplit'⟩ := split_concat hsplit
    · cases hnone
    · exact hgave before after' hsplit'
  | gaveUp hwait hdown =>
    refine ⟨nofun,fun before after hsplit => ?_⟩
    obtain ⟨rfl,-⟩ | ⟨after',hsplit'⟩ := split_concat hsplit
    · have hsome : s.pushedBefore ≠ none := fun hnone => by
        rw [hs.open_iff.mp hnone] at hdown
        cases hdown
      obtain ⟨items,hi⟩ := Option.ne_none_iff_exists'.mp hsome
      exact ⟨items,hi,hwaits hwait items hi⟩
    · exact hgave before after' hsplit'
  | shutdown =>
    refine ⟨fun hwait items hi => ?_,fun before after hsplit => ?_⟩
    · obtain hi | ⟨hnone,rfl⟩ := mem_or_some.mp hi
      · exact hwaits hwait items hi
      · -- nothing is left in the queue that was pushed before
        rw [hdrained rfl (hs.open_iff.mp hnone) hwait, List.append_nil] at hconserved
        exact hconserved ▸ List.prefix_rfl
    · obtain ⟨items,hi,hpre⟩ := hgave before after hsplit
      exact ⟨items,mem_or_some.mpr (.inl hi),hpre⟩

/-- A call has given up, or is bound to, without all that was pushed before the shutdown. -/
def Doomed (s : History α) : Prop :=
  ∃ items ∈ s.pushedBefore, (s.waiting = true ∧ ¬items <+: s.returned.reduceOption) ∨
    ∃ before after, s.returned = before ++ none :: after ∧ ¬items <+: before.reduceOption

theorem Doomed.step (hd : s.Doomed) (hs : s.Sound) (h : s.step l = some s') : s'.Doomed := by
  obtain ⟨items,hi,hlost⟩ := hd
  have hdown : s.queue.isShutdown ≠ false := fun hopen => by
    rw [hs.open_iff.mpr hopen] at hi
    cases hi
  obtain ⟨hwait,hnot⟩ | ⟨before,after,hsplit,hnot⟩ := hlost
  · cases change_of_step h with
    | pushed value => exact ⟨items,hi,.inl ⟨hwait,hnot⟩⟩
    | suspended hrun => simp [hwait] at hrun
    | popped _ _ hopen => exact absurd (hopen hwait) hdown
    | gaveUp => exact ⟨items,hi,.inr ⟨s.returned,[],rfl,hnot⟩⟩
    | shutdown => exact ⟨items,mem_or_some.mpr (.inl hi),.inl ⟨hwait,hnot⟩⟩
  · cases change_of_step h with
    | pushed value => exact ⟨items,hi,.inr ⟨before,after,hsplit,hnot⟩⟩
    | suspended => exact ⟨items,hi,.inr ⟨before,after,hsplit,hnot⟩⟩
    | @popped _ item _ => exact ⟨items,hi,.inr ⟨before,after ++ [some item],by simp [hsplit],hnot⟩⟩
    | gaveUp => exact ⟨items,hi,.inr ⟨before,after ++ [none],by simp [hsplit],hnot⟩⟩
    | shutdown =>
      exact ⟨items,mem_or_some.mpr (.inl hi),.inr ⟨before,after,hsplit,hnot⟩⟩

theorem Doomed.of_shutdown (hs : s.Sound) (hdrained : ¬s.DrainedFirst l)
    (h : s.step l = some s') : s'.Doomed := by
  simp only [DrainedFirst, Classical.not_imp] at hdrained
  obtain ⟨rfl,hopen,hwait,hne⟩ := hdrained
  cases h
  refine ⟨s.pushed,by simp [hs.open_iff.mpr hopen],.inl ⟨hwait,fun hpre => hne ?_⟩⟩
  have hconserved : s.returned.reduceOption ++ s.queue.queue = s.pushed := hs.conserved
  have hlen : s.pushed.length ≤ s.returned.reduceOption.length := hpre.length_le
  rw [← hconserved, List.length_append] at hlen
  exact List.length_eq_zero_iff.mp (by omega)

theorem Doomed.not_keepsOrder (hd : s.Doomed) (hwait : s.waiting = false) : ¬s.KeepsOrder := by
  rintro ⟨-,hgave⟩
  obtain ⟨items,hi,⟨hwait',-⟩ | ⟨before,after,hsplit,hnot⟩⟩ := hd
  · simp [hwait] at hwait'
  · obtain ⟨items',hi',hpre⟩ := hgave before after hsplit
    obtain rfl := Option.mem_unique hi hi'
    exact hnot hpre

end Steps

section Runs
variable {s : History α} {labels : List (Label α)} {ok : History α → Label α → Prop}

theorem Run.sound (h : Run step ok start labels s) : s.Sound :=
  h.invariant .start fun _ hs _ hn => hs.step hn

theorem Run.keepsOrder (h : Run step DrainedFirst start labels s) : s.KeepsOrder := by
  have hordered : s.Ordered := h.invariant ⟨nofun,by simp [start]⟩
    fun hr ho hdrained hn => ho.step (Run.sound hr) hdrained hn
  exact ⟨(Run.sound h).conserved.taken_prefix,hordered.gaveUp⟩

/-- A run in which a shutdown comes too early never recovers. -/
theorem Run.drainedFirst_or_doomed (h : Run step ok start labels s) :
    Run step DrainedFirst start labels s ∨ s.Doomed := by
  induction h with
  | nil => exact .inl .nil
  | @snoc labels s l s' before _ next ih =>
    obtain hrun | hdoomed := ih
    · by_cases hdrained : s.DrainedFirst l
      · exact .inl (hrun.snoc hdrained next)
      · exact .inr (.of_shutdown (Run.sound before) hdrained next)
    · exact .inr (hdoomed.step (Run.sound before) next)

/-- Items come out in order, and all that were pushed before the shutdown, in every run in which
the queue is not shut down over a waiting `pop` that has got items; and only there, once no `pop`
is waiting. -/
theorem keepsOrder_iff (h : Run step (fun _ _ => True) start labels s) :
    (Run step DrainedFirst start labels s → s.KeepsOrder) ∧
      (s.waiting = false → (s.KeepsOrder ↔ Run step DrainedFirst start labels s)) := by
  refine ⟨Run.keepsOrder,fun hwait => ⟨fun hkeeps => ?_,Run.keepsOrder⟩⟩
  obtain hrun | hdoomed := Run.drainedFirst_or_doomed h
  · exact hrun
  · exact absurd hkeeps (hdoomed.not_keepsOrder hwait)

end Runs

/-- Two items pass through, one of them to a `pop` that waits for it, before the shutdown. -/
theorem keepsOrder_two : ∃ s, Run step (fun _ _ => True) start
    [.pop,.push 1,.wake,.push 2,.shutdown,.pop,.pop,.wake] s ∧
      s.returned = [some 1,some 2,none] ∧ s.KeepsOrder := by
  obtain ⟨s,hs,hreturned⟩ : ∃ s, Run step DrainedFirst start
      [.pop,.push 1,.wake,.push 2,.shutdown,.pop,.pop,.wake] s ∧
        s.returned = [some 1,some 2,none] :=
    Run.of_check (by decide) (by decide)
  have hany := hs.mono fun _ _ _ => trivial
  exact ⟨s,hany,hreturned,(keepsOrder_iff hany).1 hs⟩

/-- An item pushed to a waiting `pop` is lost when the shutdown comes before the wake-up. -/
theorem item_lost : ∃ s, Run step (fun _ _ => True) start [.pop,.push 1,.shutdown,.wake] s ∧
    ¬s.KeepsOrder := by
  obtain ⟨s,hs,hreturned,hbefore⟩ : ∃ s, Run step (fun _ _ => True) start
      [.pop,.push 1,.shutdown,.wake] s ∧ s.returned = [none] ∧ s.pushedBefore = some [1] :=
    Run.of_check (accepted_of_forall (fun _ _ => trivial) _ _) (by decide)
  refine ⟨s,hs,fun hkeeps => ?_⟩
  obtain ⟨items,hi,hpre⟩ := hkeeps.2 [] [] hreturned
  obtain rfl : items = [1] := Option.some.inj (hi.symm.trans hbefore)
  simp at hpre

end History
end SpscQueue
end Foskv
