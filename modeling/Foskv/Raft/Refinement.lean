import Foskv.Raft.DeploymentSteps
import Foskv.Raft.Linearizability
import Mathlib.Algebra.BigOperators.Group.Finset.Basic
import Mathlib.Data.List.Perm.Basic

/-! What the members do as they are deployed they also do as a cluster whose messages are lost,
delayed and delivered once at most. -/
namespace Foskv.Rpc.RpcConsumer
variable {s s' : RpcConsumer} {l : Label}

theorem step_connection (h : s.step l = some s') (hl : l ≠ .connected true) :
    s'.connection = s.connection := by
  cases steps_of_step h with
  | connected _ => exact absurd rfl hl
  | _ => rfl

/-- No call gets the mutex, or goes on to write its request, but in two kinds of steps. -/
theorem step_holder (h : s.step l = some s') (hcall : l ≠ .call) (hl : l ≠ .connected true) :
    s'.holder = s.holder ∨
      ∀ k, s'.holder ≠ some (.connecting k) ∧ ∀ r, s'.holder ≠ some (.writing k r) := by
  cases steps_of_step h with
  | stores _ _ | connects _ _ => exact absurd rfl hcall
  | connected _ => exact absurd rfl hl
  | connectFailed _ | written _ | writeFailed _ | returned => exact Or.inr (by simp)
  | shutdown | shutdownReturned => exact Or.inr (by simp)
  | _ => exact Or.inl rfl

end Foskv.Rpc.RpcConsumer

namespace Foskv.Raft

/-- The messages on a connection. -/
def Lane.flight (lane : Lane) : Multiset Body :=
  ↑(lane.up.map Prod.snd) + ↑lane.tasks + ↑lane.replying.toList + ↑(lane.down.map Prod.snd)

/-- The reader and the writer of a session put no message in flight. -/
theorem Lane.moves_flight {lane lane' : Lane} {t t' : Session} {events : List Event}
    {action : Action} (haction : ∀ io, action ≠ .invoke io)
    (h : Deployment.laneStep lane t t' events action = some lane') :
    lane'.flight ≤ lane.flight := by
  cases action with
  | read frame =>
    rw [Deployment.laneStep] at h
    split at h
    · rename_i first b rest hup
      split_ifs at h
      cases h
      refine le_of_eq ?_
      rw [flight, flight, hup, List.map_cons, ← Multiset.cons_coe, ← Multiset.singleton_add,
        ← Multiset.coe_add, Multiset.coe_singleton]
      ac_rfl
    · cases h
  | invoke io => exact absurd rfl (haction io)
  | written ok =>
    cases h
    have hwritten : (↑((Deployment.written lane t ok).map Prod.snd) : Multiset Body) ≤
        ↑lane.replying.toList := by
      rw [Deployment.written]
      split
      · rename_i frame _ reply _ hreplying
        rw [hreplying]
        split_ifs
        · exact le_rfl
        · exact Multiset.zero_le _
      · exact Multiset.zero_le _
    rw [flight, flight, Option.toList_none, Multiset.coe_nil, add_zero, List.map_append,
      ← Multiset.coe_add]
    refine (add_le_add le_rfl (add_le_add le_rfl hwritten)).trans (le_of_eq ?_)
    ac_rfl
  | _ =>
    cases h
    exact le_rfl

/-- The reply to a request takes its place. -/
theorem Lane.Calls.flight [Protobuf] [PeerWire] {lane lane' : Lane} {cfg : RaftConfig}
    {io : DiskOutcome} {sender : MemberId} {x : ℕ} {p p' : Process} {b reply : Body}
    {before : List Event} (hcalls : lane.Calls cfg io sender x p p' b reply before)
    (h : Deployment.laneStep lane (p.session x) (p'.session x) (before ++ [.sent sender reply])
      (.invoke io) = some lane') :
    ∃ rest, lane.flight = b ::ₘ rest ∧ lane'.flight ≤ reply ::ₘ rest := by
  obtain ⟨rest,htasks⟩ := hcalls.tasks
  have hreplyOf : Deployment.replyOf (before ++ [.sent sender reply]) = some reply := by
    rw [Deployment.replyOf, List.getLast?_concat]
  rw [Deployment.laneStep, htasks] at h
  cases h
  refine ⟨↑(lane.up.map Prod.snd) + ↑rest + ↑lane.replying.toList + ↑(lane.down.map Prod.snd),
    ?_,?_⟩
  · rw [Lane.flight, htasks, ← Multiset.cons_coe, ← Multiset.singleton_add,
      ← Multiset.singleton_add]
    ac_rfl
  · have hreplying : (↑(Deployment.replying (p'.session x)
        (before ++ [.sent sender reply])).toList : Multiset Body) ≤
          {reply} + ↑lane.replying.toList := by
      rw [Deployment.replying]
      split
      · rw [hreplyOf]
        exact Multiset.le_add_right _ _
      · exact Multiset.zero_le _
    refine (add_le_add (add_le_add le_rfl hreplying) le_rfl).trans (le_of_eq ?_)
    rw [← Multiset.singleton_add]
    ac_rfl

namespace Channel

/-- The request of the call that holds the mutex, until it is written. -/
def writing (ch : Channel) : List Body :=
  match ch.consumer.holder with
  | some (.connecting k) | some (.writing k _) => ch.called[k]?.toList
  | _ => []

/-- The reply that a callback is about to handle. -/
def handling (callback : Option (ℕ × Bytes × Body)) : Multiset Body :=
  ↑(callback.toList.map fun e => e.2.2)

/-- The messages that may still be handled, at either end of the channel. -/
def flight (ch : Channel) : Multiset Body :=
  ↑ch.pending + ↑ch.writing +
    ∑ c ∈ Finset.range (ch.consumer.connection + 1), (ch.lane c).flight + handling ch.callback

theorem sum_lane (lane : ℕ → Lane) {c n : ℕ} (hc : c < n) : ∃ rest : Multiset Body,
    ∑ x ∈ Finset.range n, (lane x).flight = (lane c).flight + rest ∧
      ∀ new, ∑ x ∈ Finset.range n, (Function.update lane c new x).flight = new.flight + rest := by
  have hmem : c ∈ Finset.range n := Finset.mem_range.mpr hc
  refine ⟨∑ x ∈ (Finset.range n).erase c, (lane x).flight,?_,fun new => ?_⟩
  · exact (Finset.add_sum_erase _ _ hmem).symm
  · rw [← Finset.add_sum_erase _ _ hmem, Function.update_self]
    congr 1
    refine Finset.sum_congr rfl fun x hx => ?_
    rw [Function.update_of_ne (Finset.ne_of_mem_erase hx)]

/-- What changes on one lane changes in the channel. -/
theorem flight_update (ch : Channel) {c : ℕ} (hc : c ≤ ch.consumer.connection) :
    ∃ rest, ch.flight = (ch.lane c).flight + rest ∧
      ∀ lane, flight { ch with lane := Function.update ch.lane c lane } = lane.flight + rest := by
  obtain ⟨rest,hsum,hnew⟩ := sum_lane ch.lane (Nat.lt_succ_of_le hc)
  refine ⟨↑ch.pending + ↑ch.writing + rest + handling ch.callback,?_,fun lane => ?_⟩
  · rw [flight, hsum]
    ac_rfl
  · have hwriting : writing { ch with lane := Function.update ch.lane c lane } = ch.writing := rfl
    rw [flight, hwriting]
    dsimp only
    rw [hnew lane]
    ac_rfl

theorem flight_pend (ch : Channel) (requests : List Body) :
    flight { ch with pending := ch.pending ++ requests } = ↑requests + ch.flight := by
  have hwriting : writing { ch with pending := ch.pending ++ requests } = ch.writing := rfl
  rw [flight, flight, hwriting]
  dsimp only
  rw [← Multiset.coe_add]
  ac_rfl

theorem flight_handled (ch : Channel) {e : ℕ × Bytes × Body} (h : ch.callback = some e) :
    ch.flight = e.2.2 ::ₘ flight { ch with callback := none } := by
  have hwriting : writing { ch with callback := none } = ch.writing := rfl
  have hnone : handling none = 0 := rfl
  rw [flight, flight, hwriting, h, ← Multiset.singleton_add, hnone, add_zero, add_comm]
  rfl

section Sound
variable [Protobuf] [PeerWire] {ch ch' : Channel} {p p' : Process} {connection : ℕ → Option ℕ}

/-- Nothing has been sent on connections to come. -/
theorem Sound.unused (h : ch.Sound p connection) {c : ℕ} (hc : ch.consumer.connection < c) :
    (ch.lane c).flight = 0 := by
  obtain ⟨invoked,executed,hlinked⟩ := h.linked
  obtain ⟨hup,hdown⟩ := hlinked.later c hc
  obtain ⟨htasks,hreplying⟩ := h.unowned c fun x hx =>
    absurd (hlinked.opened x c hx).2 (Nat.not_le.mpr hc)
  have hup : (ch.lane c).up = [] := List.map_eq_nil_iff.mp hup
  have hdown : (ch.lane c).down = [] := List.map_eq_nil_iff.mp hdown
  rw [Lane.flight, hup, hdown, htasks, hreplying]
  rfl

/-- A request that gets the mutex is still in flight. -/
theorem Sound.call_flight (h : ch.Sound p connection) {k : ℕ} (hstep : ch.call k = some ch') :
    ch'.flight = ch.flight := by
  obtain ⟨b,hb,hstep⟩ := Option.bind_eq_some_iff.mp hstep
  obtain ⟨consumer,hconsumer,hstep⟩ := Option.bind_eq_some_iff.mp hstep
  obtain rfl := Option.some.inj hstep
  obtain ⟨hk,hkb⟩ := List.getElem?_eq_some_iff.mp hb
  have hcalled : (ch.called ++ [b])[ch.consumer.calls]? = some b := by
    rw [h.calls, List.getElem?_concat_length]
  have hbefore : ch.writing = [] := by
    have hholder : ch.consumer.holder = none := by
      cases Rpc.RpcConsumer.steps_of_step hconsumer with
      | stores free _ | connects free _ => exact free
    rw [writing, hholder]
  have hafter : writing { ch with
      consumer := consumer
      pending := ch.pending.eraseIdx k
      called := ch.called ++ [b] } = [b] := by
    rw [writing]
    cases Rpc.RpcConsumer.steps_of_step hconsumer with
    | stores free _ => exact congrArg Option.toList hcalled
    | connects free _ => exact congrArg Option.toList hcalled
  have hpending : (↑ch.pending : Multiset Body) = ↑(ch.pending.eraseIdx k) + ↑[b] := by
    have hperm := List.getElem_cons_eraseIdx_perm hk
    rw [hkb] at hperm
    exact Multiset.coe_eq_coe.mpr (hperm.symm.trans (List.perm_append_singleton b _).symm)
  rw [flight, flight, hafter, hbefore, hpending]
  dsimp only
  rw [Rpc.RpcConsumer.step_connection hconsumer (by simp), Multiset.coe_nil, add_zero]

omit [Protobuf] [PeerWire] in
theorem writing_le {consumer : Rpc.RpcConsumer} {l : Rpc.RpcConsumer.Label}
    (hstep : ch.consumer.step l = some consumer) (hcall : l ≠ .call) (hl : l ≠ .connected true)
    {lane : ℕ → Lane} {callback : Option (ℕ × Bytes × Body)} :
    (↑(writing { ch with consumer := consumer, lane := lane, callback := callback }) :
      Multiset Body) ≤ ↑ch.writing := by
  obtain hholder | hholder := Rpc.RpcConsumer.step_holder hstep hcall hl
  · refine le_of_eq ?_
    rw [writing, writing]
    dsimp only
    rw [hholder]
  · rw [writing]
    split
    · rename_i k hk
      exact absurd hk (hholder k).1
    · rename_i k r hk
      exact absurd hk ((hholder k).2 r)
    · exact Multiset.zero_le _

omit [Protobuf] in
/-- A request that is written is still in flight. -/
theorem written_flight {consumer : Rpc.RpcConsumer} {k : ℕ} {requestId : UInt64} {b : Body}
    (hstep : ch.consumer.step (.written true) = some consumer)
    (hholder : ch.consumer.holder = some (.writing k requestId)) (hb : ch.called[k]? = some b) :
    flight { ch.setCurrent { ch.current with
      up := ch.current.up ++ [(b.call.frame requestId,b)] } with consumer := consumer } =
        ch.flight := by
  obtain ⟨rest,hsum,hnew⟩ := sum_lane ch.lane (Nat.lt_succ_self ch.consumer.connection)
  have hbefore : ch.writing = [b] := by
    rw [writing, hholder]
    exact congrArg Option.toList hb
  have hafter : writing { ch.setCurrent { ch.current with
      up := ch.current.up ++ [(b.call.frame requestId,b)] } with consumer := consumer } = [] := by
    rw [writing]
    cases Rpc.RpcConsumer.steps_of_step hstep
    rfl
  have hlane : Lane.flight { ch.current with
      up := ch.current.up ++ [(b.call.frame requestId,b)] } = {b} + ch.current.flight := by
    rw [Lane.flight, Lane.flight, List.map_append, ← Multiset.coe_add, List.map_singleton,
      Multiset.coe_singleton]
    ac_rfl
  rw [flight, flight, hafter, hbefore, hsum]
  dsimp only [setCurrent]
  rw [Rpc.RpcConsumer.step_connection hstep (by simp), hnew, hlane, Multiset.coe_nil,
    Multiset.coe_singleton, current]
  ac_rfl

omit [Protobuf] [PeerWire] in
/-- So is the reply in a response that arrives. -/
theorem received_flight {consumer : Rpc.RpcConsumer} {frame : Rpc.ResponseFrame} {reply : Body}
    {rest : List (Rpc.ResponseFrame × Body)}
    (hstep : ch.consumer.step (.received (.ok frame)) = some consumer)
    (hdown : ch.current.down = (frame,reply)::rest) :
    flight { ch.setCurrent { ch.current with down := rest } with
      consumer := consumer, callback := ch.callbackOf frame reply } ≤ ch.flight := by
  obtain ⟨others,hsum,hnew⟩ := sum_lane ch.lane (Nat.lt_succ_self ch.consumer.connection)
  have hlane : ch.current.flight = {reply} + Lane.flight { ch.current with down := rest } := by
    rw [Lane.flight, Lane.flight, hdown, List.map_cons, ← Multiset.cons_coe,
      ← Multiset.singleton_add]
    ac_rfl
  have hcallback : handling (ch.callbackOf frame reply) ≤ {reply} + handling ch.callback := by
    rw [callbackOf]
    split
    · exact Multiset.le_add_right _ _
    · exact Multiset.le_add_left _ _
  rw [flight, flight, hsum]
  dsimp only [setCurrent]
  rw [Rpc.RpcConsumer.step_connection hstep (by simp), hnew, ← current, hlane]
  refine (add_le_add (add_le_add (add_le_add le_rfl
    (writing_le hstep (by simp) (by simp))) le_rfl) hcallback).trans (le_of_eq ?_)
  ac_rfl

/-- Nothing is in flight on a new connection. -/
theorem Sound.connected_flight (h : ch.Sound p connection) {consumer : Rpc.RpcConsumer}
    (hstep : ch.consumer.step (.connected true) = some consumer) :
    flight { ch with consumer := consumer } = ch.flight := by
  cases Rpc.RpcConsumer.steps_of_step hstep with
  | @connected k awaits =>
    have hwriting : writing { ch with consumer := ch.consumer.run.store k } = ch.writing := by
      rw [writing, writing, awaits]
      rfl
    have hconnection : (ch.consumer.run.store k).connection = ch.consumer.connection + 1 := rfl
    rw [flight, flight, hwriting]
    dsimp only
    rw [hconnection, Finset.sum_range_succ, h.unused (Nat.lt_succ_self _), add_zero]

/-- No other step of the consumer puts a message in flight. -/
theorem Sound.consumer_flight (h : ch.Sound p connection) {l : Rpc.RpcConsumer.Label}
    (hstep : ch.consumerStep l = some ch') : ch'.flight ≤ ch.flight := by
  obtain ⟨consumer,hconsumer,hstep⟩ := Option.bind_eq_some_iff.mp hstep
  have hquiet : l ≠ .call → flight { ch with consumer := consumer } ≤ ch.flight := by
    intro hcall
    by_cases hl : l = .connected true
    · subst hl
      exact (h.connected_flight hconsumer).le
    · rw [flight, flight]
      dsimp only
      rw [Rpc.RpcConsumer.step_connection hconsumer hl]
      exact Multiset.add_le_add_right (Multiset.add_le_add_right (Multiset.add_le_add_left
        (writing_le hconsumer hcall hl)))
  split at hstep
  · cases hstep
  · split at hstep
    · rename_i call requestId hholder
      obtain ⟨b,hb,rfl⟩ := Option.map_eq_some_iff.mp hstep
      exact (written_flight hconsumer hholder hb).le
    · cases hstep
  · rename_i frame
    split at hstep
    · rename_i first reply rest hdown
      split_ifs at hstep with hfirst
      subst hfirst
      cases hstep
      exact received_flight hconsumer hdown
    · cases hstep
  · split_ifs at hstep
    cases hstep
    exact hquiet (by simp)
  · rename_i hcall _ _ _
    cases hstep
    exact hquiet hcall

end Sound
end Channel

/-- The channel that a message belongs to. -/
def Packet.channel (p : Packet) : MemberId × MemberId :=
  if p.body.isReply then (p.receiver,p.sender) else (p.sender,p.receiver)

/-- The messages of a channel in a network. -/
def between (network : List Packet) (i : MemberId × MemberId) : Multiset Body :=
  ↑((network.filter fun p => p.channel = i).map Packet.body)

section Network
variable {network network' : List Packet} {i : MemberId × MemberId} {p : Packet} {b : Body}
  {k : ℕ} {m : MemberId}

theorem between_append :
    between (network ++ network') i = between network i + between network' i := by
  rw [between, List.filter_append, List.map_append, ← Multiset.coe_add]
  rfl

theorem between_cons :
    between (p::network) i = (if p.channel = i then {p.body} else 0) + between network i := by
  rw [between, List.filter_cons]
  by_cases hp : p.channel = i
  · simp [hp, between]
  · simp [hp, between]

theorem between_eraseIdx (hk : network[k]? = some p) :
    between network i =
      (if p.channel = i then {p.body} else 0) + between (network.eraseIdx k) i := by
  obtain ⟨hlt,rfl⟩ := List.getElem?_eq_some_iff.mp hk
  rw [← between_cons]
  exact Multiset.coe_eq_coe.mpr
    (((List.getElem_cons_eraseIdx_perm hlt).symm.filter _).map _)

theorem between_eraseIdx_of_ne (hk : network[k]? = some p) (hi : p.channel ≠ i) :
    between (network.eraseIdx k) i = between network i := by
  rw [between_eraseIdx hk, if_neg hi, zero_add]

theorem le_between_eraseIdx (hk : network[k]? = some p) {rest : Multiset Body}
    (h : p.body ::ₘ rest ≤ between network p.channel) :
    rest ≤ between (network.eraseIdx k) p.channel := by
  rw [between_eraseIdx hk, if_pos rfl, Multiset.singleton_add] at h
  exact (Multiset.cons_le_cons_iff _).mp h

/-- A message of a channel is a packet in one of two directions. -/
theorem exists_packet (h : b ∈ between network i) : ∃ k : ℕ,
    network[k]? = some (if b.isReply then Packet.mk i.2 i.1 b else ⟨i.1,i.2,b⟩) := by
  obtain ⟨⟨sender,receiver,body⟩,hp,rfl⟩ := List.mem_map.mp (Multiset.mem_coe.mp h)
  obtain ⟨hmem,hchannel⟩ := List.mem_filter.mp hp
  obtain ⟨k,hk⟩ := List.mem_iff_getElem?.mp hmem
  refine ⟨k,hk.trans (congrArg some ?_)⟩
  have hchannel : Packet.channel ⟨sender,receiver,body⟩ = i := of_decide_eq_true hchannel
  rw [← hchannel, Packet.channel]
  dsimp only
  split_ifs <;> rfl

/-- The requests that a member sends are in the network. -/
theorem requestsTo_le (events : List Event) :
    (if i.1 = m then ↑(Deployment.requestsTo i.2 events) else 0 : Multiset Body) ≤
      between (events.filterMap (packetOf m)) i := by
  split_ifs with hi
  · induction events with
    | nil => exact le_rfl
    | cons event events ih =>
      rw [Deployment.requestsTo] at ih ⊢
      cases event with
      | sent receiver body =>
        rw [List.filterMap_cons, List.filterMap_cons, packetOf]
        dsimp only
        rw [between_cons]
        by_cases hrequest : receiver = i.2 ∧ body.isReply = false
        · have hchannel : Packet.channel ⟨m,receiver,body⟩ = i := by
            rw [Packet.channel, if_neg (by simp [hrequest.2])]
            exact Prod.ext hi.symm hrequest.1
          rw [if_pos hrequest, if_pos hchannel]
          exact Multiset.cons_le_cons body ih
        · rw [if_neg hrequest]
          exact ih.trans (Multiset.le_add_left _ _)
      | _ => exact ih
  · exact Multiset.zero_le _

end Network

namespace Deployment

def nodes (d : Deployment) (m : MemberId) : RaftNode := (d.process m).node

/-- A cluster in the state of a deployment: what may still be handled is in the network. -/
structure Simulates (d : Deployment) (s : Cluster) : Prop where
  nodes : s.node = d.nodes
  history : s.history = d.history
  flight : ∀ i, (d.channel i).flight ≤ between s.network i

section Record
variable {d : Deployment} {m : MemberId} {p : Process} {events : List Event}

theorem record_nodes :
    (d.record m p events).nodes = Function.update d.nodes m p.node := by
  have hupdate := Function.comp_update Process.node d.process m p
  exact hupdate

theorem record_flight {i : MemberId × MemberId} : ((d.record m p events).channel i).flight =
    (if i.1 = m then ↑(requestsTo i.2 events) else 0) + (d.channel i).flight := by
  change (if i.1 = m then _ else _ : Channel).flight = _
  split_ifs
  · exact (d.channel i).flight_pend _
  · exact (zero_add _).symm

/-- A reply is no request. -/
theorem requestsTo_concat {receiver sender : MemberId} {reply : Body} (h : reply.isReply = true) :
    requestsTo receiver (events ++ [.sent sender reply]) = requestsTo receiver events := by
  rw [requestsTo, List.filterMap_append, List.filterMap_cons]
  dsimp only
  rw [if_neg (by simp [h])]
  exact List.append_nil _

end Record

namespace Simulates
variable {C : ClusterConfig} {d d' : Deployment} {s : Cluster} {m : MemberId} {p : Process}
  {events : List Event} {i : MemberId × MemberId} {ch : Channel}

theorem init (kv : MemberId → Storage) : Simulates (.init kv) (.init kv) where
  nodes := rfl
  history := rfl
  flight _ := le_rfl

/-- Nothing is sent. -/
theorem setChannel (h : d.Simulates s) (hch : ch.flight ≤ (d.channel i).flight) :
    (d.setChannel i ch).Simulates s where
  nodes := h.nodes
  history := h.history
  flight j := by
    change (Function.update d.channel i ch j).flight ≤ _
    by_cases hj : j = i
    · subst hj
      rw [Function.update_self]
      exact hch.trans (h.flight j)
    · rw [Function.update_of_ne hj]
      exact h.flight j

/-- The node of a process shows nothing and stays as it is. -/
theorem stutter (h : d.Simulates s) (hnode : p.node = (d.process m).node) :
    (d.record m p []).Simulates s where
  nodes := by
    rw [record_nodes, hnode, h.nodes]
    exact (Function.update_eq_self m d.nodes).symm
  history := h.history.trans (List.append_nil _).symm
  flight j := by
    rw [record_flight]
    refine (add_le_add (le_of_eq ?_) (h.flight j)).trans_eq (zero_add _)
    split_ifs <;> rfl

theorem assign (h : d.Simulates s) (hnode : p.node = (d.process m).node) {sender : MemberId}
    {c : ℕ} : (d.assign m p sender c).Simulates s where
  nodes := by
    have hnodes := Function.comp_update Process.node d.process m p
    rw [hnode] at hnodes
    exact h.nodes.trans (hnodes.trans (Function.update_eq_self m d.nodes)).symm
  history := h.history
  flight := h.flight

section Acts
variable [Protobuf]

/-- The node of a process takes a step, and so does the cluster. -/
theorem record {io : DiskOutcome} {input : Input} {network : List Packet}
    (hnodes : s.node = d.nodes) (hhistory : s.history = d.history)
    (hnode : (d.process m).node.step (C.cfg m) io input = some (p.node,events))
    (hflight : ∀ i, (if i.1 = m then ↑(requestsTo i.2 events) else 0) + (d.channel i).flight ≤
      between (network ++ events.filterMap (packetOf m)) i) :
    ∃ s', s.act C m io input network = some s' ∧ (d.record m p events).Simulates s' := by
  have hnode' : (s.node m).step (C.cfg m) io input = some (p.node,events) := by
    rw [hnodes]
    exact hnode
  refine ⟨⟨Function.update s.node m p.node,network ++ events.filterMap (packetOf m),
    s.history ++ events.map (m,·)⟩,?_,?_,?_,fun i => ?_⟩
  · rw [Cluster.act, hnode']
    rfl
  · rw [record_nodes, ← hnodes]
  · exact congrArg (· ++ events.map (m,·)) hhistory
  · rw [record_flight]
    exact hflight i

/-- The node does something on its own or for a client. -/
theorem acts (h : d.Simulates s) {io : DiskOutcome} {input : Input}
    (hnode : (d.process m).node.step (C.cfg m) io input = some (p.node,events)) :
    ∃ s', s.act C m io input s.network = some s' ∧ (d.record m p events).Simulates s' := by
  refine record h.nodes h.history hnode fun i => ?_
  rw [between_append, add_comm (between s.network i)]
  exact add_le_add (requestsTo_le events) (h.flight i)

/-- A function is called for another member, and the cluster delivers the request. -/
theorem serves [PeerWire] (hd : d.Sound) (h : d.Simulates s) {io : DiskOutcome}
    {sender : MemberId} {x c : ℕ} {b reply : Body} {before : List Event} {lane : Lane}
    (hx : d.owner m x = some (sender,c))
    (hcalls : ((d.channel (sender,m)).lane c).Calls (C.cfg m) io sender x (d.process m) p b reply
      before)
    (hlane : laneStep ((d.channel (sender,m)).lane c) ((d.process m).session x) (p.session x)
      (before ++ [.sent sender reply]) (.invoke io) = some lane) :
    ∃ k s', s.network[k]? = some ⟨sender,m,b⟩ ∧ s.step C (.deliver k io []) = some s' ∧
      ((d.setChannel (sender,m) { d.channel (sender,m) with
        lane := Function.update (d.channel (sender,m)).lane c lane }).record m p
          (before ++ [.sent sender reply])).Simulates s' := by
  obtain ⟨invoked,executed,hlinked⟩ := (hd.channels (sender,m)).linked
  have hle : c ≤ (d.channel (sender,m)).consumer.connection :=
    (hlinked.opened x c (connection_eq.mpr hx)).2
  obtain ⟨others,hflight,hnew⟩ := (d.channel (sender,m)).flight_update hle
  obtain ⟨rest,hlane₀,hlane₁⟩ := hcalls.flight hlane
  have hbetween := h.flight (sender,m)
  rw [hflight, hlane₀, Multiset.cons_add] at hbetween
  obtain ⟨k,hk⟩ := exists_packet (Multiset.mem_of_le hbetween (Multiset.mem_cons_self _ _))
  rw [if_neg (by simp [hcalls.sendable.request])] at hk
  have hchannel : Packet.channel ⟨sender,m,b⟩ = (sender,m) := by
    rw [Packet.channel, if_neg (by simp [hcalls.sendable.request])]
  have hsent : between ([Event.sent sender reply].filterMap (packetOf m)) (sender,m) = {reply} := by
    have hreply : Packet.channel ⟨m,sender,reply⟩ = (sender,m) := by
      rw [Packet.channel, if_pos hcalls.replies.isReply]
    change between [⟨m,sender,reply⟩] (sender,m) = {reply}
    rw [between_cons, if_pos hreply]
    exact add_zero _
  have hact : ∃ s', s.act C m io (.receive sender b []) (s.network.eraseIdx k) = some s' ∧ _ :=
    record (d := d.setChannel (sender,m) { d.channel (sender,m) with
      lane := Function.update (d.channel (sender,m)).lane c lane }) h.nodes h.history hcalls.node
      fun i => by
        rw [requestsTo_concat hcalls.replies.isReply, List.filterMap_append, between_append,
          between_append]
        change _ + (Function.update d.channel (sender,m) _ i).flight ≤ _
        by_cases hi : i = (sender,m)
        · subst hi
          have hrest := le_between_eraseIdx hk (hchannel ▸ hbetween)
          rw [hchannel] at hrest
          rw [Function.update_self, hnew, hsent]
          calc _ ≤ between (before.filterMap (packetOf m)) (sender,m) +
                (reply ::ₘ rest + others) :=
              add_le_add (requestsTo_le before) (Multiset.add_le_add_right hlane₁)
            _ = rest + others + (between (before.filterMap (packetOf m)) (sender,m) + {reply}) := by
              rw [← Multiset.singleton_add]
              ac_rfl
            _ ≤ _ := Multiset.add_le_add_right hrest
        · rw [Function.update_of_ne hi,
            between_eraseIdx_of_ne hk fun h => hi (h.symm.trans hchannel), add_comm]
          exact add_le_add (h.flight i) ((requestsTo_le before).trans (Multiset.le_add_right _ _))
  obtain ⟨s',hs',hsim⟩ := hact
  refine ⟨k,s',hk,?_,hsim⟩
  rw [Cluster.step, hk]
  exact hs'

/-- A callback handles its response, and the cluster delivers the reply. -/
theorem handles [PeerWire] (hd : d.Sound) (h : d.Simulates s) {m' : MemberId} {io : DiskOutcome}
    {k : ℕ} {respPayload : Bytes} {reply b body : Body}
    (hcallback : (d.channel (m,m')).callback = some (k,respPayload,reply))
    (hcalled : (d.channel (m,m')).called[k]? = some b)
    (hread : b.readReply respPayload = some body)
    (hnode : (d.process m).node.step (C.cfg m) io
      (.receive m' body (List.range (d.process m).sessionId)) = some (p.node,events)) :
    ∃ k s', s.network[k]? = some ⟨m',m,body⟩ ∧
      s.step C (.deliver k io (List.range (d.process m).sessionId)) = some s' ∧
      ((d.setChannel (m,m') { d.channel (m,m') with callback := none }).record m p
        events).Simulates s' := by
  -- what has arrived is the reply beside it
  obtain ⟨-,hbytes,b',hb',hreplies⟩ := (hd.channels (m,m')).callback _ hcallback
  obtain rfl : b = b' := Option.some.inj (hcalled.symm.trans hb')
  dsimp only at hbytes hreplies
  rw [hbytes, hreplies.readReply] at hread
  obtain rfl := Option.some.inj hread
  have hbetween := h.flight (m,m')
  rw [(d.channel (m,m')).flight_handled hcallback] at hbetween
  obtain ⟨k,hk⟩ := exists_packet (Multiset.mem_of_le hbetween (Multiset.mem_cons_self _ _))
  rw [if_pos hreplies.isReply] at hk
  have hchannel : Packet.channel ⟨m',m,reply⟩ = (m,m') := by
    rw [Packet.channel, if_pos hreplies.isReply]
  have hact : ∃ s', s.act C m io (.receive m' reply (List.range (d.process m).sessionId))
      (s.network.eraseIdx k) = some s' ∧ _ :=
    record (d := d.setChannel (m,m') { d.channel (m,m') with callback := none }) h.nodes h.history
      hnode fun i => by
        rw [between_append, add_comm (between _ _)]
        refine add_le_add (requestsTo_le events) ?_
        change (Function.update d.channel (m,m') _ i).flight ≤ _
        by_cases hi : i = (m,m')
        · subst hi
          have hrest := le_between_eraseIdx hk (hchannel ▸ hbetween)
          rw [hchannel] at hrest
          rw [Function.update_self]
          exact hrest
        · rw [Function.update_of_ne hi,
            between_eraseIdx_of_ne hk fun h => hi (h.symm.trans hchannel)]
          exact h.flight i
  obtain ⟨s',hs',hsim⟩ := hact
  refine ⟨k,s',hk,?_,hsim⟩
  rw [Cluster.step, hk]
  exact hs'

end Acts
end Simulates

section Own
variable [Protobuf] [PeerWire] {C : ClusterConfig} {d : Deployment} {m : MemberId} {p : Process}

/-- What a node reacts to without a message. -/
inductive Own : DiskOutcome → Input → Prop
  | electionTimeout : Own .ok .electionTimeout
  | heartbeatTimeout : Own .ok .heartbeatTimeout
  | client {io method reqPayload sessionId requestId} :
      Own io (.client method reqPayload sessionId requestId)

omit [PeerWire] in
theorem Own.exists_label {io : DiskOutcome} {input : Input} (h : Own io input)
    (hm : m ∈ C.members) : ∃ l, (∀ s : Cluster, s.step C l = s.act C m io input s.network) ∧
      ∀ P s, Cluster.onDelivery P s l := by
  cases h with
  | electionTimeout => exact ⟨.electionTimeout m,fun s => if_pos hm,fun _ _ => trivial⟩
  | heartbeatTimeout => exact ⟨.heartbeatTimeout m,fun s => if_pos hm,fun _ _ => trivial⟩
  | @client _ method reqPayload sessionId requestId =>
    exact ⟨.client m io method reqPayload sessionId requestId,fun s => if_pos hm,
      fun _ _ => trivial⟩

/-- The reader and the writer of a session leave the node alone. -/
theorem quiet_session {x : ℕ} {action : Action}
    (hstep : (d.process m).step (C.cfg m) (.session x action) = some p)
    (haction : ∀ io, action ≠ .invoke io) :
    p.node = (d.process m).node ∧ d.events C m (.session x action) = [] := by
  unfold Process.step at hstep
  dsimp only at hstep
  split at hstep
  · split at hstep
    · exact absurd rfl (haction _)
    · obtain ⟨t,-,hstep⟩ := Option.bind_eq_some_iff.mp hstep
      cases hstep
      constructor
      · split_ifs <;> rfl
      · cases action with
        | invoke io => exact absurd rfl (haction io)
        | _ => rfl
  · cases hstep

/-- A function that is called for nobody else serves a client. -/
theorem Sound.own_invoke (hd : d.Sound) {x : ℕ} {io : DiskOutcome}
    (hstep : (d.process m).invoke (C.cfg m) x io = some p) (houtside : d.owner m x = none) :
    p.node = (d.process m).node ∧ d.events C m (.session x (.invoke io)) = [] ∨
      ∃ io' input, Own io' input ∧ (d.process m).node.step (C.cfg m) io' input =
        some (p.node,d.events C m (.session x (.invoke io))) := by
  rw [Process.invoke] at hstep
  split at hstep
  · rename_i task hwriter
    cases hinvoke : task.invoke with
    | applied origin response =>
      rw [hinvoke] at hstep
      obtain ⟨response,-,hstep⟩ := Option.bind_eq_some_iff.mp hstep
      cases hstep
      refine Or.inl ⟨rfl,?_⟩
      rw [events, input, hwriter]
      dsimp only
      rw [hinvoke]
    | handler handler =>
      obtain ⟨method,rfl⟩ := hd.outside m x houtside task
        (by simp [Session.held, hwriter]) handler hinvoke
      rw [hinvoke] at hstep
      dsimp only at hstep
      split_ifs at hstep
      obtain ⟨r,hrun,hstep⟩ := Option.bind_eq_some_iff.mp hstep
      obtain ⟨⟨n,es⟩,hclient,hr⟩ := Option.bind_eq_some_iff.mp hrun
      cases hr
      cases hstep
      have hn : (d.process m).node.step (C.cfg m) io
          (.client method task.reqPayload x task.requestId.toNat) = some (n,es) := hclient
      refine Or.inr ⟨io,.client method task.reqPayload x task.requestId.toNat,.client,?_⟩
      rw [events, input, hwriter]
      dsimp only
      rw [hinvoke]
      dsimp only
      rw [hn]
      rfl
  · cases hstep

/-- What a node does in a step of its process outside of the sessions of other members: nothing, or
something without a message. -/
theorem Sound.own {l : Process.Label} (hd : d.Sound)
    (hstep : (d.process m).step (C.cfg m) l = some p)
    (hcallback : ∀ io sender body, l ≠ .callback io sender body)
    (houtside : ∀ x action, l = .session x action → d.owner m x = none) :
    p.node = (d.process m).node ∧ d.events C m l = [] ∨
      ∃ io input, Own io input ∧
        (d.process m).node.step (C.cfg m) io input = some (p.node,d.events C m l) := by
  cases l with
  | electionTimeout =>
    rw [Process.step] at hstep
    split_ifs at hstep
    cases hstep
    exact Or.inr ⟨_,_,.electionTimeout,rfl⟩
  | heartbeatTimeout =>
    rw [Process.step] at hstep
    split_ifs at hstep
    cases hstep
    exact Or.inr ⟨_,_,.heartbeatTimeout,rfl⟩
  | callback io sender body => exact absurd rfl (hcallback io sender body)
  | session x action =>
    by_cases haction : ∃ io, action = .invoke io
    · obtain ⟨io,rfl⟩ := haction
      rw [Process.step] at hstep
      split_ifs at hstep
      exact hd.own_invoke hstep (houtside x _ rfl)
    · exact Or.inl (quiet_session hstep (not_exists.mp haction))
  | accept | shutdown =>
    cases hstep
    exact Or.inl ⟨rfl,rfl⟩
  | sessionAt | push =>
    rw [Process.step] at hstep
    split at hstep
    · cases hstep
      exact Or.inl ⟨rfl,rfl⟩
    · cases hstep

end Own

/-- A condition on messages that does not look at the network. -/
def IgnoresNetwork (P : Cluster → Packet → Prop) : Prop :=
  ∀ ⦃s s' : Cluster⦄ ⦃p : Packet⦄, s.node = s'.node → s.history = s'.history → P s p → P s' p

section Runs
variable [Protobuf] [PeerWire] {C : ClusterConfig} {P : Cluster → Packet → Prop}
  {kv : MemberId → Storage} {d d' : Deployment} {s : Cluster} {m : MemberId} {p : Process}

omit [Protobuf] in
/-- The condition on a message that is handed over is the condition on its delivery. -/
theorem Allowed.delivery {l : Label} {packet : Packet} {k : ℕ} {io : DiskOutcome} {live : List ℕ}
    (hP : IgnoresNetwork P)
    (hok : Allowed P d l) (h : d.Simulates s) (hk : s.network[k]? = some packet)
    (hdelivered : d.delivered l = some packet) : Cluster.onDelivery P s (.deliver k io live) := by
  intro q hq
  obtain rfl := Option.some.inj (hk.symm.trans hq)
  exact hP h.nodes.symm h.history.symm (hok.2 packet hdelivered)

/-- A process steps on a session of another member. -/
theorem Simulates.served
    (hP : IgnoresNetwork P)
    (hd : d.Sound) (h : d.Simulates s) {sender : MemberId} {x c : ℕ} {action : Action}
    {lane : Lane} (hok : Allowed P d (.process m (.session x action)))
    (hstep : (d.process m).step (C.cfg m) (.session x action) = some p)
    (hx : d.owner m x = some (sender,c))
    (hlane : laneStep ((d.channel (sender,m)).lane c) ((d.process m).session x) (p.session x)
      (d.events C m (.session x action)) action = some lane)
    (hnext : d' = (d.setChannel (sender,m) { d.channel (sender,m) with
      lane := Function.update (d.channel (sender,m)).lane c lane }).record m p
        (d.events C m (.session x action))) :
    d'.Simulates s ∨
      ∃ l' s', Cluster.onDelivery P s l' ∧ s.step C l' = some s' ∧ d'.Simulates s' := by
  subst hnext
  have hconnection : d.connection (sender,m) x = some c := connection_eq.mpr hx
  by_cases haction : ∃ io, action = .invoke io
  · obtain ⟨io,rfl⟩ := haction
    obtain ⟨b,reply,before,hcalls⟩ :=
      ((hd.channels (sender,m)).serves c x hconnection).calls hstep sender
    have hinput := Sound.input_eq hx hcalls
    rw [Sound.events_eq hinput hcalls.node] at hlane ⊢
    obtain ⟨k,s',hk,hs',hsim⟩ := h.serves hd hx hcalls hlane
    refine Or.inr ⟨.deliver k io [],s',hok.delivery hP h hk ?_,hs',hsim⟩
    rw [delivered, hinput]
  · rw [not_exists] at haction
    obtain ⟨hnode,hevents⟩ := quiet_session hstep haction
    rw [hevents] at hlane ⊢
    obtain ⟨_,_,hlinked⟩ := (hd.channels (sender,m)).linked
    obtain ⟨rest,hflight,hnew⟩ :=
      (d.channel (sender,m)).flight_update (hlinked.opened x c hconnection).2
    refine Or.inl (Simulates.stutter (h.setChannel ?_) hnode)
    rw [hnew, hflight]
    exact Multiset.add_le_add_right (Lane.moves_flight haction hlane)

theorem Simulates.step
    (hP : IgnoresNetwork P)
    (hd : d.Sound) (h : d.Simulates s) {l : Label} (hok : Allowed P d l)
    (hnext : d.step C l = some d') : d'.Simulates s ∨
      ∃ l' s', Cluster.onDelivery P s l' ∧ s.step C l' = some s' ∧ d'.Simulates s' := by
  cases steps_of_step hnext with
  | unserved hm hstep hcallback houtside =>
    obtain ⟨hnode,hevents⟩ | ⟨io,input,hown,hnode⟩ := hd.own hstep hcallback houtside
    · rw [hevents]
      exact Or.inl (h.stutter hnode)
    · obtain ⟨l',hl',hP'⟩ := hown.exists_label hm
      obtain ⟨s',hs',hsim⟩ := h.acts hnode
      exact Or.inr ⟨l',s',hP' P s,(hl' s).trans hs',hsim⟩
  | served hm hstep hx hlane => exact h.served hP hd hok hstep hx hlane rfl
  | accepts hm hle hfree hstep =>
    refine Or.inl (h.assign ?_)
    cases hstep
    rfl
  | calls hstep => exact Or.inl (h.setChannel ((hd.channels _).call_flight hstep).le)
  | consumes hstep => exact Or.inl (h.setChannel ((hd.channels _).consumer_flight hstep))
  | unread hcallback hcalled hread =>
    refine Or.inl (h.setChannel ?_)
    rw [Channel.flight_handled _ hcallback]
    exact Multiset.le_cons_self _ _
  | @handled m m' io call respPayload reply' b reply p n events hcallback hcalled hread hstep
      hnode =>
    have hn : n = p.node := by
      rw [Process.step] at hstep
      split_ifs at hstep
      obtain ⟨⟨n',events'⟩,hreceive,hstep⟩ := Option.bind_eq_some_iff.mp hstep
      cases hstep
      exact congrArg Prod.fst (Option.some.inj (hnode.symm.trans hreceive))
    subst hn
    obtain ⟨k,s',hk,hs',hsim⟩ := h.handles hd hcallback hcalled hread hnode
    refine Or.inr ⟨_,s',hok.delivery hP h hk ?_,hs',hsim⟩
    rw [delivered, hcallback]
    change (((d.channel (m,m')).called[call]?).bind _) = _
    rw [hcalled]
    change (b.readReply respPayload).bind _ = _
    rw [hread]
    rfl

theorem Run.cluster (hP : IgnoresNetwork P) {labels : List Label}
    (h : Deployment.Run C P kv labels d) :
    ∃ labels' s, Cluster.Run C (Cluster.onDelivery P) kv labels' s ∧ s.node = d.nodes ∧
      s.history = d.history := by
  have hstep : ∀ {d : Deployment} {s : Cluster} {l d'}, d.Sound ∧ d.Simulates s →
      Allowed P d l → d.step C l = some d' → (d'.Sound ∧ d'.Simulates s) ∨
        ∃ l' s', Cluster.onDelivery P s l' ∧ s.step C l' = some s' ∧
          (d'.Sound ∧ d'.Simulates s') := by
    rintro d s l d' ⟨hd,hsim⟩ hok hnext
    have hd' := hd.step hok.1 hnext
    obtain hsim' | ⟨l',s',hl',hs',hsim'⟩ := hsim.step hP hd hok hnext
    · exact Or.inl ⟨hd',hsim'⟩
    · exact Or.inr ⟨l',s',hl',hs',hd',hsim'⟩
  obtain ⟨labels',s,hrun,-,hsim⟩ :=
    Generic.Run.simulates (R := fun d s => d.Sound ∧ d.Simulates s)
      ⟨Sound.init kv,.init kv⟩ hstep h
  exact ⟨labels',s,hrun,hsim.nodes,hsim.history⟩

/-- What the members do as they are deployed is a run of the cluster, under every condition on the
messages that does not look at the network. -/
theorem refines (hP : IgnoresNetwork P) {labels : List Label}
    (h : Deployment.Run C P kv labels d) :
    ∃ labels' s, Cluster.Run C (Cluster.onDelivery P) kv labels' s ∧ s.node = d.nodes ∧
      s.history = d.history := h.cluster hP

/-- Clients see one key-value store. -/
theorem deployed_linearizable {store : Storage} {labels : List Label}
    (h : Deployment.Run C (Cluster.Serving C) (fun _ => store) labels d) :
    Generic.Linearizable serve store (view d.history) := by
  have hserving : IgnoresNetwork (Cluster.Serving C) := by
    rintro ⟨_,_,_⟩ ⟨_,_,_⟩ p rfl rfl h
    exact h
  obtain ⟨labels',s,hrun,-,hhistory⟩ := h.cluster hserving
  rw [← hhistory]
  exact hrun.view_linearizable

end Runs

section Trio
attribute [local instance] Proto3.protobuf Proto3.peerWire

/-- Member 1 asks for votes. Its connection to member 3 fails; over the other one it gets the vote
of member 2. -/
def electing : List Label :=
  [.process 1 .electionTimeout,.call 1 3 0,.consumer 1 3 (.connected false),.call 1 2 0,
    .consumer 1 2 (.connected true),.consumer 1 2 (.written true),.consumer 1 2 .returned,
    .accept 1 2 1,.process 2 (.session 0 (.read ((Body.requestVote ⟨1,1,0,0⟩).call.frame 0))),
    .process 2 (.session 0 .pop),.process 2 (.session 0 (.invoke .ok)),
    .process 2 (.session 0 (.written true)),
    .consumer 1 2 (.received (.ok (⟨0,8⟩,[10,4,16,2,24,1,16,1]))),.callback 1 2 .ok,
    .consumer 1 2 .callbackReturned]

theorem refines_trio : ∃ d, Deployment.Run Cluster.trio Cluster.SingleVote
    (fun _ => Storage.empty) electing d ∧ (1,Event.becameLeader 1 []) ∈ d.history ∧
      ∃ labels' s, Cluster.Run Cluster.trio (Cluster.onDelivery Cluster.SingleVote)
        (fun _ => Storage.empty) labels' s ∧ s.node = d.nodes ∧ s.history = d.history := by
  have hP : IgnoresNetwork Cluster.SingleVote := by
    rintro ⟨_,_,_⟩ ⟨_,_,_⟩ p rfl rfl h
    exact h
  obtain ⟨d,hd,hleader⟩ : ∃ d, Deployment.Run Cluster.trio Cluster.SingleVote
      (fun _ => Storage.empty) electing d ∧ (1,Event.becameLeader 1 []) ∈ d.history :=
    Generic.Run.of_check (by decide) (by decide)
  exact ⟨d,hd,hleader,refines hP hd⟩

/-- A client puts a value at the leader, and member 2 gets the entry on the same connection. -/
def putting : List Label :=
  [.process 1 .accept,.process 1 (.session 0 (.read ((Link.puts 0).frame 0))),
    .process 1 (.session 0 .pop),.process 1 (.session 0 (.invoke .ok)),.call 1 2 0,
    .consumer 1 2 (.written true),.consumer 1 2 .returned,
    .process 2 (.session 0 (.read ((Body.appendEntries .appendEntries
      ⟨1,1,0,0,[⟨1,1,[10,6,10,1,1,18,1,2]⟩],0⟩).call.frame 1))),
    .process 2 (.session 0 .pop),.process 2 (.session 0 (.invoke .ok)),
    .process 2 (.session 0 (.written true)),
    .consumer 1 2 (.received (.ok (⟨1,12⟩,[10,4,16,2,24,1,16,1,24,1,32,1]))),.callback 1 2 .ok]

theorem deployed_linearizable_trio : ∃ d, Deployment.Run Cluster.trio
    (Cluster.Serving Cluster.trio) (fun _ => Storage.empty) (electing ++ putting) d ∧
      (1,Event.replied 1 ⟨1,0,0,.kvPut ⟨[1],[2],∅⟩⟩ ⟨0,some (.put
        (produceRpcResponseHeader true .noError none))⟩) ∈ d.history ∧
      Generic.Linearizable serve Storage.empty (view d.history) := by
  obtain ⟨d,hd,hreply⟩ : ∃ d, Deployment.Run Cluster.trio
      (Cluster.Serving Cluster.trio) (fun _ => Storage.empty) (electing ++ putting) d ∧
        (1,Event.replied 1 ⟨1,0,0,.kvPut ⟨[1],[2],∅⟩⟩ ⟨0,some (.put
          (produceRpcResponseHeader true .noError none))⟩) ∈ d.history :=
    Generic.Run.of_check (by decide) (by decide)
  exact ⟨d,hd,hreply,deployed_linearizable hd⟩

end Trio

end Deployment
end Foskv.Raft
