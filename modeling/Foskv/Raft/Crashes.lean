import Foskv.Raft.Recovery

/-! A cluster whose members crash, also in the middle of a reaction, and start again from their
stores: what a log has it keeps. -/
namespace Foskv.Raft
open Generic

/-- In a crash during a reaction `l` tells which of its raft-store writes came before the crash,
and `kv` what the key-value store has; nothing of the reaction is sent. -/
inductive CrashLabel
  | step (l : Label)
  | crash (m : MemberId)
  | crashDuring (l : Label) (kv : Storage)

namespace RaftNode

/-- Nothing is cut, and entries that the store takes continue the log with 64-bit indexes. -/
def Continues (n : RaftNode) (io : DiskOutcome) : Input → Prop
  | .receive _ body _ => ∀ request ∈ body.appendRequest, ¬n.Cuts request ∧
    (request.entries ≠ [] → n.currentTerm ≤ request.term →
      request.prevLogIndex ≤ n.logs.lastLogIndex → io.append = true →
        request.prevLogIndex = n.logs.lastLogIndex ∧
        n.logs.entries.length + request.entries.length < UInt64.size)
  | .client .. => n.logs.entries.length + 1 < UInt64.size
  | _ => True

instance (n : RaftNode) (io : DiskOutcome) (input : Input) : Decidable (n.Continues io input) :=
  match input with
  | .receive _ body _ => inferInstanceAs (Decidable (∀ request ∈ body.appendRequest, ¬_ ∧
      (_ → _ → _ → _ → _ ∧ _)))
  | .client .. => inferInstanceAs (Decidable (_ < _))
  | .electionTimeout => .isTrue trivial
  | .heartbeatTimeout => .isTrue trivial

section Steps
variable [Protobuf] {cfg : RaftConfig} {n n' : RaftNode} {io : DiskOutcome} {input : Input}
  {events : List Event}

/-- Such a step leaves on disk what it leaves in memory, and takes nothing from the log. -/
theorem Saved.step (hn : n.Saved) (h : n.step cfg io input = some (n',events))
    (hok : n.Continues io input)
    (hreq : ∀ {sender body live}, input = .receive sender body live →
      ∀ request ∈ body.appendRequest, IndexedFrom (request.prevLogIndex + 1) request.entries) :
    n'.Saved ∧ n.logs.entries <+: n'.logs.entries := by
  have hcut : ∀ {sender callback request live},
      input = .receive sender (.appendEntries callback request) live → ¬n.Cuts request := by
    rintro sender callback request live rfl
    exact (hok request (Body.mem_appendRequest.mpr ⟨callback,rfl⟩)).1
  obtain ⟨es,hsaves,happends⟩ := step_saves h hcut
  have hterm := (step_transition h).term_le
  have hend : IndexedFrom (n.logs.entries.length + 1) es ∧
      (es ≠ [] → n.logs.entries.length + es.length < UInt64.size) := by
    cases happends with
    | none => exact ⟨.nil,fun hne => absurd rfl hne⟩
    | @received sender callback request live hio hentries hle hprev =>
      have hmem : request ∈ (Body.appendEntries callback request).appendRequest := rfl
      obtain ⟨hlast,hfit⟩ := (hok request hmem).2 hentries hle hprev hio
      rw [← RaftLog.lastLogIndex_eq hn.firstIndex, ← hlast]
      exact ⟨hreq rfl request hmem,fun _ => hlast ▸
        RaftLog.lastLogIndex_eq hn.firstIndex ▸ hfit⟩
    | queued command =>
      rw [RaftLog.lastLogIndex_eq hn.firstIndex]
      exact ⟨IndexedFrom.single_iff.mpr rfl,fun _ => hok⟩
  exact ⟨hn.saves hsaves hterm hend.1 hend.2,⟨es,hsaves.entries.symm⟩⟩

end Steps
end RaftNode

namespace Cluster

section Crashes
variable [Protobuf] (C : ClusterConfig)

/-- Member `m` starts from two stores. -/
def restart (s : Cluster) (m : MemberId) (raftStore kvStore : Storage) : Option Cluster :=
  match RaftNode.create raftStore kvStore true with
  | .error _ => none
  | .ok n => some { s with node := Function.update s.node m n }

/-- A message whose reaction the crash interrupts is gone. -/
def crashStep (s : Cluster) : CrashLabel → Option Cluster
  | .step l => s.step C l
  | .crash m => s.restart m (s.node m).logs.persister.st (s.node m).stateMachine.st
  | .crashDuring l kv => do
    let s' ← s.step C l
    let (m,_) ← s.taken l
    Cluster.restart { s with network := remaining l s.network } m
      (s'.node m).logs.persister.st kv

end Crashes

/-- Every reaction, also one that a crash interrupts, continues the log. -/
def Continuing (s : Cluster) : CrashLabel → Prop
  | .step l => onStep RaftNode.Continues s l
  | .crash _ => True
  | .crashDuring l _ => onStep RaftNode.Continues s l

instance (s : Cluster) (l : CrashLabel) : Decidable (Continuing s l) :=
  match l with
  | .step l => inferInstanceAs (Decidable (onStep RaftNode.Continues s l))
  | .crash _ => .isTrue trivial
  | .crashDuring l _ => inferInstanceAs (Decidable (onStep RaftNode.Continues s l))

/-- A crash now leaves every member its log, and a term that is not later. -/
def Survives [Protobuf] (s : Cluster) : Prop :=
  ∀ m kv, ∃ n, RaftNode.create (s.node m).logs.persister.st kv true = .ok n ∧
    n.logs.entries = (s.node m).logs.entries ∧ n.currentTerm ≤ (s.node m).currentTerm

/-- The entries that a member has acknowledged are in its log. -/
def AcksKept (s : Cluster) : Prop :=
  ∀ m receiver callback response,
    (m,.sent receiver (.appendEntriesReply callback response)) ∈ s.history →
      response.lastLogIndex ≤ (s.node m).logs.entries.length

/-- Every log continues what it was. -/
def LogsContinue (s t : Cluster) : Prop :=
  ∀ m, (s.node m).logs.entries <+: (t.node m).logs.entries

/-- What holds in a cluster of such members. -/
structure Durable [Protobuf] (s : Cluster) : Prop where
  node : ∀ m, (s.node m).Saved
  requests : ∀ p ∈ s.network, ∀ request ∈ p.body.appendRequest,
    IndexedFrom (request.prevLogIndex + 1) request.entries
  acks : AcksKept s

namespace Durable
variable [Protobuf] {C : ClusterConfig} {s s' : Cluster} {l : Label}

theorem init (kv : MemberId → Storage) : Durable (Cluster.init kv) where
  node m := .fresh (kv m)
  requests p hp := by cases hp
  acks m receiver callback response h := by cases h

/-- One reaction. -/
theorem step (hd : Durable s) (h : s.step C l = some s')
    (hok : onStep RaftNode.Continues s l) : Durable s' ∧ LogsContinue s s' := by
  obtain ⟨-,hl⟩ | ⟨m,io,input,n',events,rest,htaken,hn,ha⟩ := step_taken h
  · refine ⟨⟨hl.node ▸ hd.node,fun p hp => hd.requests p (hl.network.subset hp),?_⟩,fun m => ?_⟩
    · rw [AcksKept, hl.history, hl.node]
      exact hd.acks
    · rw [hl.node]
  · obtain ⟨hsaved,hgrow⟩ := (hd.node m).step hn (hok _ htaken) fun heq =>
      hd.requests _ (ha.packet_mem heq)
    have hlogs : LogsContinue s s' := by
      intro i
      by_cases hi : i = m
      · rw [hi, ha.node_self]
        exact hgrow
      · rw [ha.node_ne hi]
    refine ⟨⟨fun i => ?_,fun p hp request hreq => ?_,?_⟩,hlogs⟩
    · by_cases hi : i = m
      · rw [hi, ha.node_self]
        exact hsaved
      · rw [ha.node_ne hi]
        exact hd.node i
    · obtain hp | ⟨-,he⟩ := ha.mem_network hp
      · exact hd.requests p hp request hreq
      · obtain ⟨callback,hbody⟩ := Body.mem_appendRequest.mp hreq
        rw [hbody] at he
        exact ha.transition.sent_indexed (hd.node m).firstIndex (hd.node m).indexed he
    · intro i receiver callback response he
      obtain he | ⟨rfl,he⟩ := ha.mem_history.mp he
      · exact (hd.acks i _ _ _ he).trans (hlogs i).length_le
      · have ho := ha.origin he
        rw [ha.node_self]
        cases ho with
        | appendReply _ => exact (RaftLog.lastLogIndex_eq hsaved.firstIndex).le

/-- A start from the store of a node that has saved its log. -/
theorem restart (hd : Durable s) {m : MemberId} {n : RaftNode} {kv : Storage} (hn : n.Saved)
    (hgrow : (s.node m).logs.entries <+: n.logs.entries)
    (h : s.restart m n.logs.persister.st kv = some s') : Durable s' ∧ LogsContinue s s' := by
  obtain ⟨n',hcreate,hsaved,hentries,-⟩ := hn.create kv
  unfold Cluster.restart at h
  rw [hcreate] at h
  cases h
  have hlogs : LogsContinue s { s with node := Function.update s.node m n' } := by
    intro i
    by_cases hi : i = m
    · subst hi
      simpa only [Function.update_self, hentries] using hgrow
    · simp only [Function.update_of_ne hi, List.prefix_refl]
  refine ⟨⟨fun i => ?_,hd.requests,fun i _ _ _ he => ?_⟩,hlogs⟩
  · by_cases hi : i = m
    · subst hi
      simpa only [Function.update_self] using hsaved
    · simpa only [Function.update_of_ne hi] using hd.node i
  · exact (hd.acks i _ _ _ he).trans (hlogs i).length_le

theorem crashStep {l : CrashLabel} (hd : Durable s) (h : s.crashStep C l = some s')
    (hok : Continuing s l) : Durable s' ∧ LogsContinue s s' := by
  cases l with
  | step l => exact hd.step h hok
  | crash m => exact hd.restart (hd.node m) (List.prefix_refl _) h
  | crashDuring l kv =>
    obtain ⟨t,ht,h⟩ := Option.bind_eq_some_iff.mp h
    obtain ⟨⟨m,x⟩,-,h⟩ := Option.bind_eq_some_iff.mp h
    obtain ⟨hdt,hlogs⟩ := hd.step ht hok
    have hrest : Durable { s with network := remaining l s.network } :=
      ⟨hd.node,fun p hp => hd.requests p (remaining_subset l _ hp),hd.acks⟩
    exact hrest.restart (hdt.node m) (hlogs m) h

end Durable

section Runs
variable [Protobuf] {C : ClusterConfig} {s : Cluster} {kv : MemberId → Storage}
  {labels : List CrashLabel}

theorem Run.durable
    (h : Generic.Run (Cluster.crashStep C) Continuing (Cluster.init kv) labels s) : Durable s :=
  Generic.Run.invariant (.init kv) (fun _ hd hok hn => (hd.crashStep hn hok).1) h

/-- However often members crash, in every state of a run whose reactions continue the logs a
crash would leave each member its log, each has what it acknowledged, and no log ever loses an
entry. -/
theorem crashes_lose_nothing
    (h : Generic.Run (Cluster.crashStep C) Continuing (Cluster.init kv) labels s) :
    Throughout (Cluster.crashStep C) (Cluster.init kv) (fun s => Survives s ∧ AcksKept s)
      LogsContinue labels := by
  refine Generic.Run.throughout ?_ ?_ (fun hr => ⟨fun m kv => ?_,(Run.durable hr).acks⟩)
    (fun hr hok hn => ((Run.durable hr).crashStep hn hok).2) h
  · exact fun s m => List.prefix_refl _
  · exact fun h h' m => (h m).trans (h' m)
  · obtain ⟨n,hcreate,-,hentries,hterm,-⟩ := ((Run.durable hr).node m).create kv
    exact ⟨n,hcreate,hentries,hterm⟩

end Runs

section Trio
attribute [local instance] Proto3.protobuf

/-- Member 2 crashes after it has acknowledged an entry, and again while it appends the next one,
which its log then has although it was not acknowledged. -/
theorem crashes_lose_nothing_trio : ∃ s, Generic.Run (Cluster.crashStep trio) Continuing
    (Cluster.init fun _ => Storage.empty) [.step (.electionTimeout 1),.step (delivery 0),
      .step (delivery 1),.step (putting 1 10),.step (delivery 1),.crash 2,.step (putting 1 20),
      .crashDuring (delivery 3) Storage.empty] s ∧
    ((s.node 2).logs.entries.length = 2 ∧ (s.node 2).role = .follower) ∧
    Throughout (Cluster.crashStep trio) (Cluster.init fun _ => Storage.empty)
      (fun s => Survives s ∧ AcksKept s) LogsContinue [.step (.electionTimeout 1),
        .step (delivery 0),.step (delivery 1),.step (putting 1 10),.step (delivery 1),.crash 2,
        .step (putting 1 20),.crashDuring (delivery 3) Storage.empty] := by
  obtain ⟨s,hs,hlog⟩ : ∃ s, Generic.Run (Cluster.crashStep trio) Continuing
      (Cluster.init fun _ => Storage.empty) [.step (.electionTimeout 1),.step (delivery 0),
        .step (delivery 1),.step (putting 1 10),.step (delivery 1),.crash 2,
        .step (putting 1 20),.crashDuring (delivery 3) Storage.empty] s ∧
      ((s.node 2).logs.entries.length = 2 ∧ (s.node 2).role = .follower) :=
    Generic.Run.of_check (by decide) (by decide)
  exact ⟨s,hs,hlog,crashes_lose_nothing hs⟩

end Trio
end Cluster
end Foskv.Raft
