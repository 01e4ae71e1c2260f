import Foskv.Generic.Splice
import Foskv.Raft.Positions

/-! Handling a request with entries against Raft's rule for it. -/
namespace Foskv.Raft
open Generic
namespace RaftNode

/-- The request does not fit the log: its predecessor is missing or of another term. -/
def Misfit (n : RaftNode) (request : AppendEntriesRequest) : Prop :=
  n.logs.lastLogIndex < request.prevLogIndex ∨
    n.logs.termAt request.prevLogIndex ≠ request.prevLogTerm

instance (n : RaftNode) (request : AppendEntriesRequest) : Decidable (n.Misfit request) :=
  inferInstanceAs (Decidable (_ ∨ _))

/-- Raft's rule: the log up to `prev_log_index` stays, and behind it the request's entries take
the place of what disagrees with them. -/
def referenceAppend (log : List LogEntry) (request : AppendEntriesRequest) : List LogEntry :=
  log.take request.prevLogIndex ++
    splice LogEntry.term (log.drop request.prevLogIndex) request.entries

/-- Handling a request of Raft twice is handling it once. -/
theorem referenceAppend_twice (log : List LogEntry) (request : AppendEntriesRequest)
    (hprev : request.prevLogIndex ≤ log.length) :
    referenceAppend (referenceAppend log request) request = referenceAppend log request := by
  have hlen : (log.take request.prevLogIndex).length = request.prevLogIndex := by
    rw [List.length_take]
    omega
  unfold referenceAppend
  rw [List.take_left' hlen, List.drop_left' hlen, splice_splice]

/-- The view of the entries to apply leaves the vector: it starts inside the log and its end
lies before its start by more than one, so its length wraps around. -/
def ViewEscapes (lastApplied commitIndex lastLogIndex : ℕ) : Prop :=
  commitIndex < lastApplied ∧ lastApplied < lastLogIndex ∧ lastLogIndex < commitIndex + UInt64.size

instance (lastApplied commitIndex lastLogIndex : ℕ) :
    Decidable (ViewEscapes lastApplied commitIndex lastLogIndex) :=
  inferInstanceAs (Decidable (_ ∧ _ ∧ _))

/-- The rule for the reply and for the log behind it. Without a fitting predecessor nothing of
the request is appended. -/
def FollowsRule (n : RaftNode) (request : AppendEntriesRequest) (n' : RaftNode)
    (response : AppendEntriesResponse) : Prop :=
  if n.Misfit request then
    response.success = false ∧ n'.logs.entries.IsPrefix n.logs.entries
  else
    response.success = true ∧ n'.logs.entries = referenceAppend n.logs.entries request ∧
      ∀ e ∈ request.entries, n'.logs.entryAt e.index = .ok e

/-- The node turns the request down for its predecessor, or for a broken store too, or appends it
right at its end and finds the entries to apply. -/
def KeepsRule (n : RaftNode) (io : DiskOutcome) (request : AppendEntriesRequest) : Prop :=
  n.logs.lastLogIndex < request.prevLogIndex ∨
  n.logs.termAt request.prevLogIndex ≠ request.prevLogTerm ∧ io.append = false ∨
  request.prevLogIndex = n.logs.lastLogIndex ∧
    n.logs.termAt request.prevLogIndex = request.prevLogTerm ∧ io.append = true ∧
    ¬(n.commitIndex < request.leaderCommit ∧ ViewEscapes n.lastApplied
      (min (n.logs.lastLogIndex + request.entries.length) request.leaderCommit)
      (n.logs.lastLogIndex + request.entries.length))

instance (n : RaftNode) (io : DiskOutcome) (request : AppendEntriesRequest) :
    Decidable (n.KeepsRule io request) := inferInstanceAs (Decidable (_ ∨ _ ∧ _ ∨ _ ∧ _ ∧ _ ∧ ¬_))

/-- The second time the request is turned down again, or its entries do not reach the store. -/
def KeepsRuleTwice (n : RaftNode) (io' : DiskOutcome) (request : AppendEntriesRequest) : Prop :=
  n.logs.lastLogIndex < request.prevLogIndex ∨ io'.append = false ∨
    n.logs.termAt request.prevLogIndex ≠ request.prevLogTerm ∧ 0 < request.prevLogIndex

instance (n : RaftNode) (io' : DiskOutcome) (request : AppendEntriesRequest) :
    Decidable (n.KeepsRuleTwice io' request) := inferInstanceAs (Decidable (_ ∨ _ ∨ _ ∧ _))

section Handling
variable [Protobuf] {cfg : RaftConfig} {n n' : RaftNode} {io io' : DiskOutcome}
  {request : AppendEntriesRequest} {events : List Event} {response : AppendEntriesResponse}

omit [Protobuf] in
theorem read_eq_none_iff {view : Span} {entries : List LogEntry} :
    view.read entries = none ↔ entries.length < view.offset + view.count := by
  unfold Span.read
  split_ifs with h
  · simpa using h
  · simpa using h

theorem applyView_eq_none : n.applyView = none ↔
    ∃ view, n.logs.entriesView (n.lastApplied + 1) n.commitIndex = .ok view ∧
      view.read n.logs.entries = none := by
  unfold applyView
  cases n.logs.entriesView (n.lastApplied + 1) n.commitIndex with
  | error e => simp
  | ok view => cases hread : view.read n.logs.entries <;> simp [hread]

theorem applyView_eq_none_iff (hfirst : n.logs.firstIndex = 1)
    (hcommit : n.commitIndex ≤ n.logs.lastLogIndex) :
    n.applyView = none ↔ ViewEscapes n.lastApplied n.commitIndex n.logs.lastLogIndex := by
  have hlast := RaftLog.lastLogIndex_eq hfirst
  rw [applyView_eq_none]
  unfold RaftLog.entriesView ViewEscapes
  rw [hfirst]
  by_cases hstart : n.lastApplied < n.logs.lastLogIndex
  · rw [if_neg (by omega)]
    simp only [Except.ok.injEq, exists_eq_left', read_eq_none_iff, sub64, ← hlast]
    split_ifs <;> omega
  · rw [if_pos (by omega)]
    simp [hstart]

variable (cfg io) in
/-- A request behind whose predecessor the log ends is turned down. -/
theorem handle_beyond (hterm : n.currentTerm ≤ request.term) (hne : request.entries ≠ [])
    (hprev : n.logs.lastLogIndex < request.prevLogIndex) :
    n.handleAppendEntriesRequest cfg io request =
      some ({ n.observeTerm io request.term with leaderId := some request.leaderId },[],
        (n.observeTerm io request.term).produceAppendEntriesResponse cfg false
          (n.logs.lastLogIndex + 1)) := by
  obtain ⟨r,v,vf,p,hobs⟩ := (observeTerm_observed n io hterm).eq
  rw [handleAppendEntriesRequest, if_neg (Nat.not_lt.mpr hterm), hobs]
  simp only [List.isEmpty_iff, hne, if_false]
  exact if_pos hprev

omit [Protobuf] in
/-- A cut asks the store for an empty range, so it always returns. -/
theorem resolveConflict_isSome (hfirst : n.logs.firstIndex = 1) (io : DiskOutcome)
    (prevLogIndex prevLogTerm : ℕ) :
    ∃ logs, n.resolveConflict io prevLogIndex prevLogTerm = some { n with logs := logs } ∧
      logs.firstIndex = 1 := by
  unfold resolveConflict
  split_ifs with hterm
  · unfold RaftLog.truncateEntries
    split_ifs with hrange
    · exact ⟨n.logs,rfl,hfirst⟩
    · rw [hfirst, RaftLog.lastLogIndex_eq hfirst] at hrange
      have hcount : 1 + (n.logs.entries.take (prevLogIndex - 1)).length - 1 + 1 -
          prevLogIndex = 0 := by
        rw [List.length_take]
        omega
      simp only [Persister.truncateBatch, RaftLog.lastLogIndex, hfirst, hcount,
        Persister.truncateKeys, Option.bind_eq_bind, Option.bind_some]
      cases io.truncate
      · exact ⟨_,rfl,rfl⟩
      · exact ⟨_,rfl,rfl⟩
  · exact ⟨n.logs,rfl,hfirst⟩

variable (cfg io) in
/-- A request whose predecessor lies in the log goes on to its entries. -/
theorem handle_within (hfirst : n.logs.firstIndex = 1) (hterm : n.currentTerm ≤ request.term)
    (hne : request.entries ≠ []) (hprev : request.prevLogIndex ≤ n.logs.lastLogIndex) :
    ∃ logs : RaftLog, logs.firstIndex = 1 ∧
      logs.entries = (if n.Cuts request then n.logs.entries.take (request.prevLogIndex - 1)
        else n.logs.entries) ∧
      (n.logs.termAt request.prevLogIndex = request.prevLogTerm →
        logs = (n.observeTerm io request.term).logs) ∧
      n.handleAppendEntriesRequest cfg io request =
        ({ n.observeTerm io request.term with
          leaderId := some request.leaderId
          logs := logs } : RaftNode).acceptEntries cfg io request.entries request.leaderCommit := by
  obtain ⟨r,v,vf,p,hobs⟩ := (observeTerm_observed n io hterm).eq
  have hfirst₁ : ({ n.observeTerm io request.term with
      leaderId := some request.leaderId } : RaftNode).logs.firstIndex = 1 := by
    rw [hobs]
    exact hfirst
  have htermAt : (n.observeTerm io request.term).logs.termAt request.prevLogIndex =
      n.logs.termAt request.prevLogIndex := by
    rw [hobs]
    rfl
  obtain ⟨logs,hres,hlogs⟩ := resolveConflict_isSome hfirst₁ io request.prevLogIndex
    request.prevLogTerm
  refine ⟨logs,hlogs,?_,?_,?_⟩
  · have hentries := resolveConflict_entries hres
    have hlast : (n.observeTerm io request.term).logs.lastLogIndex = n.logs.lastLogIndex := by
      rw [hobs]
      rfl
    have hlog : (n.observeTerm io request.term).logs.entries = n.logs.entries := by
      rw [hobs]
    change logs.entries = _ at hentries
    rw [hentries, hfirst₁]
    simp only [hlast, htermAt, hlog, Cuts, hne, hterm, hfirst, ne_eq, not_false_eq_true, true_and]
  · intro hfits
    unfold resolveConflict at hres
    rw [if_neg (not_not.mpr (htermAt.trans hfits))] at hres
    exact (congrArg RaftNode.logs (Option.some.inj hres)).symm
  · rw [handleAppendEntriesRequest, if_neg (Nat.not_lt.mpr hterm)]
    simp only [List.isEmpty_iff, hne, if_false]
    rw [if_neg (by rw [hobs]; exact Nat.not_lt.mpr hprev), hres]
    rfl

theorem appendEntries_of_accepted (l : RaftLog) {entries : List LogEntry} (hne : entries ≠ []) :
    ∃ p, l.persister.persistBatch true entries = .ok p ∧
      l.appendEntries true entries = .ok { l with
        entries := l.entries ++ entries
        persister := p } := by
  obtain ⟨last,hlast⟩ := Option.ne_none_iff_exists'.mp (mt List.getLast?_eq_none_iff.mp hne)
  have hp := l.persister.persistBatch_eq hlast
  exact ⟨_,hp,by rw [RaftLog.appendEntries, hp]⟩

theorem appendEntries_of_rejected (l : RaftLog) {entries : List LogEntry} :
    l.appendEntries false entries = .error .logEntriesPersistFailed := by
  unfold RaftLog.appendEntries Persister.persistBatch
  cases entries.getLast? <;> rfl

theorem acceptEntries_rejected {entries : List LogEntry} {leaderCommit : ℕ}
    (hio : io.append = false) : n.acceptEntries cfg io entries leaderCommit =
      some (n,[],n.produceAppendEntriesResponse cfg false (n.logs.lastLogIndex + 1)) := by
  rw [acceptEntries, hio, appendEntries_of_rejected]

variable (cfg io) in
/-- With the entries in the log the commit index is raised and the view of the new ones applied,
where that view exists. -/
theorem acceptEntries_accepted (hfirst : n.logs.firstIndex = 1) {entries : List LogEntry}
    (hne : entries ≠ []) (leaderCommit : ℕ) (hio : io.append = true) :
    if n.commitIndex < leaderCommit ∧ ViewEscapes n.lastApplied
        (min (n.logs.lastLogIndex + entries.length) leaderCommit)
        (n.logs.lastLogIndex + entries.length) then
      n.acceptEntries cfg io entries leaderCommit = none
    else ∃ n' events p, n.acceptEntries cfg io entries leaderCommit =
        some (n',events,n'.produceAppendEntriesResponse cfg true 1) ∧
      n'.currentTerm = n.currentTerm ∧ n.logs.persister.persistBatch true entries = .ok p ∧
      n'.logs = { n.logs with entries := n.logs.entries ++ entries, persister := p } := by
  obtain ⟨p,hp,happend⟩ := appendEntries_of_accepted n.logs hne
  have hlast : ({ n.logs with entries := n.logs.entries ++ entries, persister := p } :
      RaftLog).lastLogIndex = n.logs.lastLogIndex + entries.length := by
    simp only [RaftLog.lastLogIndex, hfirst, List.length_append]
    omega
  rw [acceptEntries, hio, happend]
  dsimp only
  by_cases hc : n.commitIndex < leaderCommit
  · have hview := @applyView_eq_none_iff _ (({ n with logs := { n.logs with
      entries := n.logs.entries ++ entries, persister := p } } : RaftNode).raiseCommit
        leaderCommit)
    rw [raiseCommit_logs, raiseCommit, if_pos hc, hlast] at hview
    have hview := hview hfirst (Nat.min_le_left _ _)
    rw [if_pos hc, raiseCommit, if_pos hc, hlast]
    split_ifs with he
    · rw [hview.mpr he.2]
      rfl
    · obtain ⟨r,hr⟩ := Option.ne_none_iff_exists'.mp (mt hview.mp (fun h => he ⟨hc,h⟩))
      obtain ⟨sm,la,heq⟩ := (applyView_viewed hr).eq
      rw [hr]
      refine ⟨_,_,p,rfl,?_,hp,?_⟩
      · rw [heq]
      · rw [heq]
  · rw [if_neg hc, if_neg (fun h => hc h.1)]
    exact ⟨_,_,p,rfl,rfl,hp,rfl⟩

/-- Handling the request keeps to the rule. -/
def MeetsRule (cfg : RaftConfig) (n : RaftNode) (io : DiskOutcome)
    (request : AppendEntriesRequest) : Prop :=
  ∃ n' events response, n.handleAppendEntriesRequest cfg io request =
    some (n',events,response) ∧ n.FollowsRule request n' response

/-- Handling the request leaves the log as it is. -/
def LeavesLog (cfg : RaftConfig) (n : RaftNode) (io : DiskOutcome)
    (request : AppendEntriesRequest) : Prop :=
  ∃ n' events response, n.handleAppendEntriesRequest cfg io request =
    some (n',events,response) ∧ n'.logs.entries = n.logs.entries

/-- Handling the request a second time leaves the log as it is. -/
def Repeats (cfg : RaftConfig) (n : RaftNode) (io io' : DiskOutcome)
    (request : AppendEntriesRequest) : Prop :=
  ∀ n' events response, n.handleAppendEntriesRequest cfg io request = some (n',events,response) →
    n'.LeavesLog cfg io' request

omit [Protobuf] in
/-- Behind entries that fit the end of the log the rule appends them; a log that goes on there
is never just extended. -/
theorem referenceAppend_eq_append_iff (hfirst : n.logs.firstIndex = 1)
    (hne : request.entries ≠ []) (hprev : request.prevLogIndex ≤ n.logs.lastLogIndex) :
    n.logs.entries ++ request.entries = referenceAppend n.logs.entries request ↔
      request.prevLogIndex = n.logs.lastLogIndex := by
  rw [RaftLog.lastLogIndex_eq hfirst] at hprev ⊢
  unfold referenceAppend
  constructor
  · intro heq
    by_contra hlt
    have hold : n.logs.entries.drop request.prevLogIndex ≠ [] := by
      rw [ne_eq, List.drop_eq_nil_iff]
      omega
    have hshort := length_splice_lt LogEntry.term hold hne
    have hlen := congrArg List.length heq
    simp only [List.length_append, List.length_take, List.length_drop] at hlen hshort
    omega
  · intro heq
    rw [heq, List.take_length, List.drop_length, splice_nil]

/-- Handling the request returns with this verdict and leaves this log. -/
def Gives (cfg : RaftConfig) (n : RaftNode) (io : DiskOutcome) (request : AppendEntriesRequest)
    (success : Bool) (log : List LogEntry) : Prop :=
  ∃ n' events response, n.handleAppendEntriesRequest cfg io request =
    some (n',events,response) ∧ response.success = success ∧ n'.logs.entries = log ∧
      n'.logs.firstIndex = 1 ∧ n'.currentTerm = request.term

/-- What a conflict leaves of the log. -/
def keptLog (n : RaftNode) (request : AppendEntriesRequest) : List LogEntry :=
  if n.Cuts request then n.logs.entries.take (request.prevLogIndex - 1) else n.logs.entries

section Outcomes
variable (hfirst : n.logs.firstIndex = 1) (hterm : n.currentTerm ≤ request.term)
  (hne : request.entries ≠ [])
include hfirst hterm hne

variable (cfg io) in
theorem gives_beyond (hprev : n.logs.lastLogIndex < request.prevLogIndex) :
    n.Gives cfg io request false n.logs.entries := by
  have hrun := handle_beyond cfg io hterm hne hprev
  obtain ⟨r,v,vf,p,hobs⟩ := (observeTerm_observed n io hterm).eq
  rw [hobs] at hrun
  exact ⟨_,_,_,hrun,rfl,rfl,hfirst,rfl⟩

variable (cfg io) in
theorem gives_rejected (hprev : request.prevLogIndex ≤ n.logs.lastLogIndex)
    (hio : io.append = false) : n.Gives cfg io request false (n.keptLog request) := by
  obtain ⟨logs,hlogs,hentries,-,hrun⟩ := handle_within cfg io hfirst hterm hne
    hprev
  obtain ⟨r,v,vf,p,hobs⟩ := (observeTerm_observed n io hterm).eq
  rw [acceptEntries_rejected hio, hobs] at hrun
  exact ⟨_,_,_,hrun,rfl,hentries,hlogs,rfl⟩

variable (cfg io) in
/-- Entries that are written are accepted where the view of what they commit exists. -/
theorem gives_accepted (hprev : request.prevLogIndex ≤ n.logs.lastLogIndex)
    (hio : io.append = true) :
    if n.commitIndex < request.leaderCommit ∧ ViewEscapes n.lastApplied
        (min ((n.keptLog request).length + request.entries.length) request.leaderCommit)
        ((n.keptLog request).length + request.entries.length) then
      n.handleAppendEntriesRequest cfg io request = none
    else n.Gives cfg io request true (n.keptLog request ++ request.entries) := by
  obtain ⟨logs,hlogs,hentries,-,hrun⟩ := handle_within cfg io hfirst hterm hne
    hprev
  obtain ⟨r,v,vf,p,hobs⟩ := (observeTerm_observed n io hterm).eq
  rw [hobs] at hrun
  have haccept := acceptEntries_accepted cfg io (n := { n with
    role := r
    votes := v
    leaderId := some request.leaderId
    votedFor := vf
    currentTerm := request.term
    logs := logs }) hlogs hne request.leaderCommit hio
  rw [RaftLog.lastLogIndex_eq hlogs] at haccept
  unfold keptLog
  rw [← hentries]
  split_ifs at haccept ⊢ with hescape
  · exact hrun.trans haccept
  · obtain ⟨n',events,p,haccept,hterm',-,hlog⟩ := haccept
    exact ⟨n',events,_,hrun.trans haccept,rfl,by rw [hlog],by rw [hlog]; exact hlogs,hterm'⟩

end Outcomes

section Verdicts
variable {success : Bool} {log : List LogEntry}

/-- The rule on what the handling gives. -/
theorem Gives.meetsRule_iff (h : n.Gives cfg io request success log) :
    n.MeetsRule cfg io request ↔
      if n.Misfit request then success = false ∧ log.IsPrefix n.logs.entries
      else success = true ∧ log = referenceAppend n.logs.entries request ∧
        ∀ e ∈ request.entries, 0 < e.index ∧ log[e.index - 1]? = some e := by
  obtain ⟨n',events,response,hrun,rfl,rfl,hfirst',-⟩ := h
  have hrule : n.MeetsRule cfg io request ↔ n.FollowsRule request n' response := by
    constructor
    · rintro ⟨n'',events',response',hrun',hfollows⟩
      rw [hrun, Option.some.injEq, Prod.mk.injEq, Prod.mk.injEq] at hrun'
      obtain ⟨rfl,-,rfl⟩ := hrun'
      exact hfollows
    · exact fun hfollows => ⟨n',events,response,hrun,hfollows⟩
  rw [hrule, FollowsRule]
  simp only [RaftLog.entryAt_ok hfirst']

/-- A second handling is one of a node that has the log of the first. -/
theorem Gives.repeats_iff (h : n.Gives cfg io request success log) {P : Prop}
    (hagain : ∀ n' : RaftNode, n'.logs.firstIndex = 1 → n'.currentTerm = request.term →
      n'.logs.entries = log → (n'.LeavesLog cfg io' request ↔ P)) :
    n.Repeats cfg io io' request ↔ P := by
  obtain ⟨n',events,response,hrun,-,hlog,hfirst',hterm'⟩ := h
  rw [← hagain n' hfirst' hterm' hlog]
  constructor
  · exact fun hr => hr n' events response hrun
  · intro hleaves n'' events' response' hrun'
    rw [hrun, Option.some.injEq, Prod.mk.injEq] at hrun'
    obtain ⟨rfl,-⟩ := hrun'
    exact hleaves

/-- A log that is not cut stays as it is when the request is turned down and only then. -/
theorem leavesLog_iff (hfirst : n.logs.firstIndex = 1) (hterm : n.currentTerm ≤ request.term)
    (hne : request.entries ≠ []) (hcut : ¬n.Cuts request) :
    n.LeavesLog cfg io request ↔
      n.logs.lastLogIndex < request.prevLogIndex ∨ io.append = false := by
  have hkept : n.keptLog request = n.logs.entries := if_neg hcut
  by_cases hprev : n.logs.lastLogIndex < request.prevLogIndex
  · obtain ⟨n',events,response,hrun,-,hlog,-⟩ :=
      gives_beyond cfg io hfirst hterm hne hprev
    exact iff_of_true ⟨n',events,response,hrun,hlog⟩ (Or.inl hprev)
  have hprev' := Nat.le_of_not_lt hprev
  cases hio : io.append with
  | false =>
    obtain ⟨n',events,response,hrun,-,hlog,-⟩ :=
      gives_rejected cfg io hfirst hterm hne hprev' hio
    exact iff_of_true ⟨n',events,response,hrun,hlog.trans hkept⟩ (Or.inr rfl)
  | true =>
    refine iff_of_false ?_ (by simp [hprev])
    rintro ⟨n',events,response,hrun,hlog⟩
    have haccept := gives_accepted cfg io hfirst hterm hne hprev' hio
    split_ifs at haccept
    · rw [haccept] at hrun
      cases hrun
    · obtain ⟨n'',events',response',hrun',-,hlog',-⟩ := haccept
      rw [hrun, Option.some.injEq, Prod.mk.injEq] at hrun'
      obtain ⟨rfl,-⟩ := hrun'
      rw [hlog', hkept] at hlog
      exact hne (List.append_right_eq_self.mp hlog)

end Verdicts

section Rule
variable (hfirst : n.logs.firstIndex = 1) (hterm : n.currentTerm ≤ request.term)
  (hne : request.entries ≠ [])
include hfirst hterm hne

variable (cfg io) in
theorem meetsRule_iff (hreq : IndexedFrom (request.prevLogIndex + 1) request.entries) :
    n.MeetsRule cfg io request ↔ n.KeepsRule io request := by
  unfold KeepsRule
  by_cases hprev : n.logs.lastLogIndex < request.prevLogIndex
  · have hmisfit : n.Misfit request := Or.inl hprev
    rw [(gives_beyond cfg io hfirst hterm hne hprev).meetsRule_iff,
      if_pos hmisfit]
    exact iff_of_true ⟨rfl,List.prefix_rfl⟩ (Or.inl hprev)
  have hprev' := Nat.le_of_not_lt hprev
  by_cases hterms : n.logs.termAt request.prevLogIndex = request.prevLogTerm
  · -- the predecessor fits, so the log is not cut
    have hfits : ¬n.Misfit request := fun h => h.elim hprev fun hne => hne hterms
    have hkept : n.keptLog request = n.logs.entries := if_neg fun h => h.2.2.2.2 hterms
    cases hio : io.append with
    | false =>
      rw [(gives_rejected cfg io hfirst hterm hne hprev' hio).meetsRule_iff, if_neg hfits]
      simp [hprev, hterms]
    | true =>
      have haccept := gives_accepted cfg io hfirst hterm hne hprev' hio
      rw [hkept, ← RaftLog.lastLogIndex_eq hfirst] at haccept
      split_ifs at haccept with hescape
      · refine iff_of_false ?_ (by simp [hprev, hterms, hescape])
        rintro ⟨n',events,response,hrun,-⟩
        rw [haccept] at hrun
        cases hrun
      · rw [haccept.meetsRule_iff, if_neg hfits, referenceAppend_eq_append_iff hfirst hne hprev']
        simp only [hprev, hterms, hescape, ne_eq, not_true_eq_false, false_and, false_or, true_and,
          not_false_eq_true, and_true, and_iff_left_iff_imp]
        intro hend e he
        rw [hend, RaftLog.lastLogIndex_eq hfirst] at hreq
        exact hreq.getElem?_append he
  · have hmisfit : n.Misfit request := Or.inr hterms
    cases hio : io.append with
    | false =>
      rw [(gives_rejected cfg io hfirst hterm hne hprev' hio).meetsRule_iff,
        if_pos hmisfit]
      refine iff_of_true ⟨rfl,?_⟩ (Or.inr (Or.inl ⟨hterms,rfl⟩))
      unfold keptLog
      split_ifs
      · exact List.take_prefix _ _
      · exact List.prefix_rfl
    | true =>
      have haccept := gives_accepted cfg io hfirst hterm hne hprev' hio
      refine iff_of_false ?_ (by simp [hprev, hterms])
      split_ifs at haccept
      · rintro ⟨n',events,response,hrun,-⟩
        rw [haccept] at hrun
        cases hrun
      · rw [haccept.meetsRule_iff, if_pos hmisfit]
        simp

/-- Where the rule is kept once. -/
theorem repeats_iff (hkeeps : n.KeepsRule io request) :
    n.Repeats cfg io io' request ↔ n.KeepsRuleTwice io' request := by
  have hbeyond : ∀ {n' : RaftNode}, n'.logs.firstIndex = 1 → n'.currentTerm = request.term →
      n'.logs.lastLogIndex < request.prevLogIndex → n'.LeavesLog cfg io' request := by
    intro n' hfirst' hterm' hprev
    rw [leavesLog_iff hfirst' hterm'.le hne fun h => Nat.not_lt.mpr h.2.2.2.1 hprev]
    exact Or.inl hprev
  unfold KeepsRuleTwice
  by_cases hprev : n.logs.lastLogIndex < request.prevLogIndex
  · refine (gives_beyond cfg io hfirst hterm hne hprev).repeats_iff fun n' hfirst' hterm' hlog => ?_
    refine iff_of_true (hbeyond hfirst' hterm' ?_) (Or.inl hprev)
    rwa [RaftLog.lastLogIndex_eq hfirst', hlog, ← RaftLog.lastLogIndex_eq hfirst]
  have hprev' := Nat.le_of_not_lt hprev
  obtain hlt | ⟨hterms,hio⟩ | ⟨hend,hterms,hio,hescape⟩ := hkeeps
  · exact absurd hlt hprev
  · have hgives := gives_rejected cfg io hfirst hterm hne hprev' hio
    refine hgives.repeats_iff fun n' hfirst' hterm' hlog => ?_
    obtain hzero | hpos := Nat.eq_zero_or_pos request.prevLogIndex
    · -- a disagreement at index 0 cuts nothing, neither now nor the second time
      have hcut : ¬n'.Cuts request := by
        intro h
        have := h.2.2.1
        omega
      rw [leavesLog_iff hfirst' hterm'.le hne hcut, hzero]
      simp
    · -- the cut leaves the predecessor outside the log
      refine iff_of_true (hbeyond hfirst' hterm' ?_) (Or.inr (Or.inr ⟨hterms,hpos⟩))
      have hcut : n.Cuts request := ⟨hne,hterm,by omega,hprev',hterms⟩
      rw [RaftLog.lastLogIndex_eq hfirst', hlog, keptLog, if_pos hcut, List.length_take]
      omega
  · have hkept : n.keptLog request = n.logs.entries := if_neg fun h => h.2.2.2.2 hterms
    have haccept := gives_accepted cfg io hfirst hterm hne hprev' hio
    rw [hkept, ← RaftLog.lastLogIndex_eq hfirst, if_neg hescape] at haccept
    refine haccept.repeats_iff fun n' hfirst' hterm' hlog => ?_
    rw [RaftLog.lastLogIndex_eq hfirst] at hprev'
    have hterms' : n'.logs.termAt request.prevLogIndex = request.prevLogTerm := by
      rw [← hterms, RaftLog.termAt_eq hfirst hprev', RaftLog.termAt_eq hfirst'
        (by rw [hlog, List.length_append]; omega), hlog, List.take_append_of_le_length hprev']
    rw [leavesLog_iff hfirst' hterm'.le hne fun h => h.2.2.2.2 hterms',
      RaftLog.lastLogIndex_eq hfirst', RaftLog.lastLogIndex_eq hfirst, hlog, List.length_append]
    simp only [hterms, ne_eq, not_true_eq_false, false_and, or_false]
    exact or_congr_left (iff_of_false (by omega) (by omega))

end Rule

/-- Handling a request with entries follows Raft's rule, and handling it again leaves the log
alone, exactly when the request is turned down for its predecessor, or reaches a store that fails
it, or goes to the very end of the log once. -/
theorem append_rule_iff (cfg : RaftConfig) (n : RaftNode) (io io' : DiskOutcome)
    (request : AppendEntriesRequest) (hfirst : n.logs.firstIndex = 1)
    (hterm : n.currentTerm ≤ request.term) (hne : request.entries ≠ [])
    (hreq : IndexedFrom (request.prevLogIndex + 1) request.entries) :
    (n.MeetsRule cfg io request ↔ n.KeepsRule io request) ∧
    (n.MeetsRule cfg io request ∧ n.Repeats cfg io io' request ↔
      n.KeepsRule io request ∧ n.KeepsRuleTwice io' request) := by
  have hmeets := meetsRule_iff cfg io hfirst hterm hne hreq
  refine ⟨hmeets,?_⟩
  rw [hmeets]
  exact and_congr_right fun hkeeps => repeats_iff hfirst hterm hne hkeeps

end Handling

section Examples
attribute [local instance] Proto3.protobuf

/-- A follower with one entry. -/
private def oneEntry : RaftNode :=
  { RaftNode.fresh Storage.empty with logs := ⟨1,[⟨1,1,[]⟩],⟨Storage.empty⟩⟩ }

theorem append_rule_next :
    oneEntry.MeetsRule ⟨1,8,[]⟩ .ok ⟨1,7,1,1,[⟨1,2,[]⟩],0⟩ :=
  (append_rule_iff ⟨1,8,[]⟩ oneEntry .ok .ok ⟨1,7,1,1,[⟨1,2,[]⟩],0⟩ rfl (by decide) (by decide)
    (by decide)).1.mpr (by decide)

/-- A request whose predecessor is of another term is accepted after its cut, its entry of index
2 at index 1; and an entry that is already there is appended once more. -/
theorem misfit_accepted :
    oneEntry.Misfit ⟨2,7,1,2,[⟨2,2,[]⟩],0⟩ ∧
    ¬oneEntry.MeetsRule ⟨1,8,[]⟩ .ok ⟨2,7,1,2,[⟨2,2,[]⟩],0⟩ ∧
    ¬oneEntry.MeetsRule ⟨1,8,[]⟩ .ok ⟨1,7,0,0,[⟨1,1,[]⟩],0⟩ := by
  have hcut : (oneEntry.handleAppendEntriesRequest ⟨1,8,[]⟩ .ok ⟨2,7,1,2,[⟨2,2,[]⟩],0⟩).map
      (fun r => (r.2.2.success,r.1.logs.entries)) = some (true,[⟨2,2,[]⟩]) := by decide
  have htwice : (oneEntry.handleAppendEntriesRequest ⟨1,8,[]⟩ .ok ⟨1,7,0,0,[⟨1,1,[]⟩],0⟩).map
      (fun r => (r.2.2.success,r.1.logs.entries)) = some (true,[⟨1,1,[]⟩,⟨1,1,[]⟩]) := by decide
  refine ⟨by decide,?_,?_⟩
  · rintro ⟨n',events,response,hrun,hrule⟩
    rw [hrun, Option.map_some, Option.some.injEq, Prod.mk.injEq] at hcut
    rw [FollowsRule, if_pos (by decide), hcut.1] at hrule
    exact absurd hrule.1 (by decide)
  · rintro ⟨n',events,response,hrun,hrule⟩
    rw [hrun, Option.map_some, Option.some.injEq, Prod.mk.injEq] at htwice
    rw [FollowsRule, if_neg (by decide), htwice.2] at hrule
    exact absurd hrule.2.1 (by decide)

end Examples
end RaftNode
end Foskv.Raft
