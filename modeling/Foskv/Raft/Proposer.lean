import Foskv.Generic.Handover
import Foskv.Rpc.Messages

/-! The buffer of proposed entries, which is filled by `propose` and emptied by `take`. -/
namespace Foskv.Raft
open Generic

structure Proposer where
  entries : List LogEntry

namespace Proposer

def propose (p : Proposer) (entry : LogEntry) : Proposer := ⟨p.entries ++ [entry]⟩

/-- `RepeatedPtrField::Swap`: what the two lists hold afterwards. -/
def swap (entries other : List LogEntry) : List LogEntry × List LogEntry := (other,entries)

/-- `take` swaps its local list with itself before it clears `entries_`. -/
def take (_ : Proposer) : Proposer × List LogEntry :=
  let entries : List LogEntry := []
  let entries := (swap entries entries).1
  (⟨[]⟩,entries)

def size (p : Proposer) : ℕ := p.entries.length

end Proposer

inductive ProposerCall
  | propose (entry : LogEntry)
  | take

/-- A proposer, the entries that were proposed to it and the lists that `take` has returned. -/
structure ProposerHistory where
  proposer : Proposer
  proposed : List LogEntry
  returned : List (List LogEntry)

namespace ProposerHistory

def empty : ProposerHistory := ⟨⟨[]⟩,[],[]⟩

def call (s : ProposerHistory) : ProposerCall → ProposerHistory
  | .propose entry => ⟨s.proposer.propose entry,s.proposed ++ [entry],s.returned⟩
  | .take =>
    let (proposer,entries) := s.proposer.take
    ⟨proposer,s.proposed,s.returned ++ [entries]⟩

def calls (l : List ProposerCall) : ProposerHistory := l.foldl call empty

def handover (s : ProposerHistory) : Handover LogEntry :=
  ⟨s.proposed,s.returned.flatten,s.proposer.entries⟩

/-- What `take` has returned and what is pending are the proposed entries in order, and `size` is
the number of pending ones. -/
def Conserves (s : ProposerHistory) : Prop :=
  s.handover.Conserved ∧ s.proposer.size = s.handover.held.length

theorem handover_propose (s : ProposerHistory) (entry : LogEntry) :
    (s.call (.propose entry)).handover = s.handover.give [entry] := rfl

/-- A `take` returns nothing. -/
theorem handover_take (s : ProposerHistory) : (s.call .take).handover = s.handover.drop := by
  simp [call, handover, Handover.drop, Proposer.take, Proposer.swap]

theorem calls_concat (l : List ProposerCall) (c : ProposerCall) :
    calls (l ++ [c]) = (calls l).call c := List.foldl_concat call empty c l

theorem taken_calls (l : List ProposerCall) : (calls l).handover.taken = [] := by
  induction l using List.reverseRecOn with
  | nil => rfl
  | append_singleton l c ih =>
    rw [calls_concat]
    cases c with
    | propose entry => exact ih
    | take =>
      rw [handover_take]
      exact ih

theorem put_calls_eq_nil {l : List ProposerCall} :
    (calls l).handover.put = [] ↔ ∀ c ∈ l, c = .take := by
  induction l using List.reverseRecOn with
  | nil => simp [calls, empty, handover]
  | append_singleton l c ih =>
    rw [calls_concat]
    cases c with
    | propose entry => simp [handover_propose, Handover.give]
    | take =>
      rw [handover_take, List.forall_mem_append]
      exact ih.trans (and_iff_left (by simp)).symm

/-- No entry is lost exactly if every `take` comes before the first `propose`. -/
theorem conserves_calls_iff (l : List ProposerCall) :
    (calls l).Conserves ↔ l.Pairwise fun earlier later => later = .take → earlier = .take := by
  refine (and_iff_left rfl).trans ?_
  induction l using List.reverseRecOn with
  | nil => exact iff_of_true rfl .nil
  | append_singleton l c ih =>
    rw [calls_concat, List.pairwise_append]
    cases c with
    | propose entry =>
      rw [handover_propose, Handover.conserved_give, ih]
      simp
    | take =>
      -- what was proposed before is gone and nobody got it
      rw [handover_take, Handover.conserved_drop, taken_calls, eq_comm, put_calls_eq_nil]
      simp only [List.pairwise_singleton, List.mem_singleton, forall_eq, true_and,
        forall_const]
      refine ⟨fun h => ⟨?_,h⟩,And.right⟩
      exact List.pairwise_of_forall_mem_list fun earlier hmem _ _ _ => h earlier hmem

/-- The one entry of a batch is in nobody's hands after `take`. -/
theorem take_loses_entry : ¬(calls [.propose ⟨1,1,[7]⟩,.take]).Conserves ∧
    (calls [.propose ⟨1,1,[7]⟩,.take]).returned = [[]] ∧
    (calls [.propose ⟨1,1,[7]⟩,.take]).proposer.entries = [] :=
  ⟨fun h => absurd h.1 (by decide),rfl,rfl⟩

end ProposerHistory
end Foskv.Raft
