import Foskv.Raft.Cluster
import Foskv.Raft.EndToEnd
import Foskv.Raft.PeerMessages

/-! The members as they are deployed: each is a process, and has an `RpcConsumer` for every other
member. What they send each other are frames on connections that break at any time; the messages
in them are recorded beside them. -/
namespace Foskv.Raft

/-- One connection between two members, with the message in every frame. -/
structure Lane where
  up : List (Rpc.RequestFrame × Body)
  /-- The requests that the session has read and whose functions have not been called. -/
  tasks : List Body
  /-- The reply in the response that the session writes. -/
  replying : Option Body
  down : List (Rpc.ResponseFrame × Body)

def Lane.empty : Lane := ⟨[],[],none,[]⟩

/-- What a member has for another one: the `Peer` with its consumer, and its connections. -/
structure Channel where
  consumer : Rpc.RpcConsumer
  /-- The requests whose `call()` has not got the mutex. -/
  pending : List Body
  /-- The requests of the calls, by their numbers. -/
  called : List Body
  lane : ℕ → Lane
  /-- The callback that has been called and has not handled its response, with the reply in it. -/
  callback : Option (ℕ × Bytes × Body)

namespace Channel

def init : Channel := ⟨.init,[],[],fun _ => .empty,none⟩

/-- The lane of the last connection. -/
def current (ch : Channel) : Lane := ch.lane ch.consumer.connection

def setCurrent (ch : Channel) (lane : Lane) : Channel :=
  { ch with lane := Function.update ch.lane ch.consumer.connection lane }

section Steps
variable [PeerWire]

/-- One of the requests gets the mutex. -/
def call (ch : Channel) (k : ℕ) : Option Channel := do
  let b ← ch.pending[k]?
  let consumer ← ch.consumer.step .call
  return { ch with
    consumer := consumer
    pending := ch.pending.eraseIdx k
    called := ch.called ++ [b] }

omit [PeerWire] in
/-- The callback that runs after a response has arrived. -/
def callbackOf (ch : Channel) (frame : Rpc.ResponseFrame) (reply : Body) :
    Option (ℕ × Bytes × Body) :=
  match ch.consumer.callbacks frame.1.requestId with
  | some (some call) => some (call,frame.2,reply)
  | _ => ch.callback

/-- The other steps of the consumer. A request is in flight once all its bytes are written, and
the reader awaits the callback of a response. -/
def consumerStep (ch : Channel) (l : Rpc.RpcConsumer.Label) : Option Channel :=
  (ch.consumer.step l).bind fun consumer =>
    match l with
    | .call => none
    | .written true =>
      match ch.consumer.holder with
      | some (.writing call requestId) =>
        ch.called[call]?.map fun b =>
          { ch.setCurrent { ch.current with
              up := ch.current.up ++ [(b.call.frame requestId,b)] } with consumer := consumer }
      | _ => none
    | .received (.ok frame) =>
      match ch.current.down with
      | (first,reply)::rest =>
        if first = frame then
          some { ch.setCurrent { ch.current with down := rest } with
            consumer := consumer, callback := ch.callbackOf frame reply }
        else none
      | [] => none
    | .callbackReturned =>
      if ch.callback.isNone then some { ch with consumer := consumer } else none
    | _ => some { ch with consumer := consumer }

end Steps
end Channel

/-- `channel (m,m')` belongs to `m`; `owner m x` is the member, with the number of its connection,
for which `m` has opened session `x`. -/
structure Deployment where
  process : MemberId → Process
  owner : MemberId → ℕ → Option (MemberId × ℕ)
  channel : MemberId × MemberId → Channel
  history : List (MemberId × Event)

namespace Deployment

def init (kv : MemberId → Storage) : Deployment where
  process m := .init (.fresh (kv m))
  owner _ _ := none
  channel _ := .init
  history := []

inductive Label
  /-- A step of the process of `m` other than the callbacks of its own requests. -/
  | process (m : MemberId) (l : Process.Label)
  /-- The provider of `m'` accepts a connection of `m`. -/
  | accept (m m' : MemberId) (c : ℕ)
  | call (m m' : MemberId) (k : ℕ)
  | consumer (m m' : MemberId) (l : Rpc.RpcConsumer.Label)
  /-- The callback of a request of `m` handles the response of `m'`. -/
  | callback (m m' : MemberId) (io : DiskOutcome)

def setChannel (d : Deployment) (i : MemberId × MemberId) (ch : Channel) : Deployment :=
  { d with channel := Function.update d.channel i ch }

/-- The process of `m` opens its next session, for connection `c` of `sender`. -/
def assign (d : Deployment) (m : MemberId) (process : Process) (sender : MemberId) (c : ℕ) :
    Deployment :=
  { d with
    process := Function.update d.process m process
    owner := Function.update d.owner m
      (Function.update (d.owner m) (d.process m).sessionId (some (sender,c))) }

/-- The requests to a member among the events of a step. -/
def requestsTo (receiver : MemberId) (events : List Event) : List Body :=
  events.filterMap fun
    | .sent m body => if m = receiver ∧ body.isReply = false then some body else none
    | _ => none

/-- The process of `m` takes a step in which its node shows `events`. -/
def record (d : Deployment) (m : MemberId) (process : Process) (events : List Event) :
    Deployment where
  process := Function.update d.process m process
  owner := d.owner
  channel i :=
    if i.1 = m then
      { d.channel i with pending := (d.channel i).pending ++ requestsTo i.2 events }
    else d.channel i
  history := d.history ++ events.map (m,·)

/-- The request whose function the session calls. -/
def served (d : Deployment) (m : MemberId) (x : ℕ) : Option (MemberId × Body) := do
  let (sender,c) ← d.owner m x
  let b ← ((d.channel (sender,m)).lane c).tasks.head?
  return (sender,b)

/-- What the node of a process reacts to in a step. -/
def input (d : Deployment) (m : MemberId) : Process.Label → Option (DiskOutcome × Input)
  | .electionTimeout => some (.ok,.electionTimeout)
  | .heartbeatTimeout => some (.ok,.heartbeatTimeout)
  | .session x (.invoke io) =>
    match ((d.process m).session x).writer with
    | .invoking task =>
      match task.invoke with
      | .handler (.kv method) =>
        some (io,.client method task.reqPayload x task.requestId.toNat)
      | .handler _ => (d.served m x).map fun r => (io,.receive r.1 r.2 [])
      | .applied .. => none
    | _ => none
  | _ => none

section Steps
variable [Protobuf] [PeerWire] (C : ClusterConfig)

/-- The events of the node in a step. -/
def events (d : Deployment) (m : MemberId) (l : Process.Label) : List Event :=
  match d.input m l with
  | none => []
  | some (io,input) => (((d.process m).node.step (C.cfg m) io input).map Prod.snd).getD []

/-- The reply among the events of a request. -/
def replyOf (events : List Event) : Option Body :=
  match events.getLast? with
  | some (.sent _ reply) => some reply
  | _ => none

/-- The reply in the response that a session writes after a call. -/
def replying (t : Session) (events : List Event) : Option Body :=
  match t.writer with
  | .responding .. => replyOf events
  | _ => none

/-- The response that is in flight after a write. -/
def written (lane : Lane) (t : Session) (ok : Bool) : List (Rpc.ResponseFrame × Body) :=
  match t.writer,lane.replying with
  | .responding frame _,some reply => if ok then [(frame,reply)] else []
  | _,_ => []

/-- What an action of its session does to a lane; `t` is the session before it and `t'` after. -/
def laneStep (lane : Lane) (t t' : Session) (events : List Event) : Action → Option Lane
  | .read frame =>
    match lane.up with
    | (first,b)::rest =>
      if first = frame ∧ frame.2.length ≤ Rpc.maxRpcMessageSize then
        some { lane with up := rest, tasks := lane.tasks ++ [b] }
      else none
    | [] => none
  | .invoke _ => some { lane with tasks := lane.tasks.tail, replying := replying t' events }
  | .written ok => some { lane with replying := none, down := lane.down ++ written lane t ok }
  | _ => some lane

def processStep (d : Deployment) (m : MemberId) (l : Process.Label) : Option Deployment := do
  let process ← (d.process m).step (C.cfg m) l
  let events := d.events C m l
  match l with
  | .callback .. => none
  | .session x action =>
    match d.owner m x with
    | none => some (d.record m process events)
    | some (sender,c) =>
      let ch := d.channel (sender,m)
      let lane ← laneStep (ch.lane c) ((d.process m).session x) (process.session x) events action
      return (d.setChannel (sender,m) { ch with lane := Function.update ch.lane c lane }).record m
        process events
  | _ => some (d.record m process events)

/-- The callback reads the reply from the payload it got and the node handles it, if it can be
parsed. -/
def callbackStep (d : Deployment) (m m' : MemberId) (io : DiskOutcome) : Option Deployment := do
  let (call,respPayload,_) ← (d.channel (m,m')).callback
  let b ← (d.channel (m,m')).called[call]?
  let d := d.setChannel (m,m') { d.channel (m,m') with callback := none }
  match b.readReply respPayload with
  | none => return d
  | some reply =>
    let live := List.range (d.process m).sessionId
    let process ← (d.process m).step (C.cfg m) (.callback io m' reply)
    let (_,events) ← (d.process m).node.step (C.cfg m) io (.receive m' reply live)
    return d.record m process events

def step (d : Deployment) : Label → Option Deployment
  | .process m l => if m ∈ C.members then d.processStep C m l else none
  | .accept m m' c =>
    if m' ∈ C.members ∧ c ≠ 0 ∧ c ≤ (d.channel (m,m')).consumer.connection ∧
        ∀ x ∈ List.range (d.process m').sessionId, d.owner m' x ≠ some (m,c) then
      ((d.process m').step (C.cfg m') .accept).map fun process => d.assign m' process m c
    else none
  | .call m m' k => ((d.channel (m,m')).call k).map (d.setChannel (m,m'))
  | .consumer m m' l => ((d.channel (m,m')).consumerStep l).map (d.setChannel (m,m'))
  | .callback m m' io => d.callbackStep C m m' io

/-- The nodes and what has been observed. -/
def observed (d : Deployment) : Cluster where
  node m := (d.process m).node
  network := []
  history := d.history

/-- The message that a step hands to a node. -/
def delivered (d : Deployment) : Label → Option Packet
  | .process m l =>
    match d.input m l with
    | some (_,.receive sender b _) => some ⟨sender,m,b⟩
    | _ => none
  | .callback m m' _ => do
    let (call,respPayload,_) ← (d.channel (m,m')).callback
    let b ← (d.channel (m,m')).called[call]?
    let reply ← b.readReply respPayload
    return ⟨m',m,reply⟩
  | _ => none

/-- `call()` stores its callback under an id that has no entry and protobuf serialises its
request; whoever is no member calls the functions for clients only. -/
def Regular (d : Deployment) : Label → Prop
  | .call m m' k =>
    let consumer := (d.channel (m,m')).consumer
    (consumer.streamValid ∨ consumer.isRunning → consumer.callbacks consumer.requestId = none) ∧
      ∀ b ∈ (d.channel (m,m')).pending[k]?, b.bytes.length ≤ Proto3.maxSerializedSize
  | .consumer m m' (.connected ok) =>
    let consumer := (d.channel (m,m')).consumer
    ok → consumer.callbacks consumer.requestId = none
  | .process m (.session x (.read frame)) =>
    d.owner m x = none → frame.1.serviceType = .kKv
  | _ => True

/-- A run all of whose steps are regular and hand over messages that meet a condition. -/
def Allowed (P : Cluster → Packet → Prop) (d : Deployment) (l : Label) : Prop :=
  d.Regular l ∧ ∀ p ∈ d.delivered l, P d.observed p

instance (d : Deployment) (l : Label) : Decidable (d.Regular l) :=
  match l with
  | .call m m' k =>
    inferInstanceAs (Decidable (((d.channel (m,m')).consumer.streamValid ∨
      (d.channel (m,m')).consumer.isRunning → (d.channel (m,m')).consumer.callbacks
        (d.channel (m,m')).consumer.requestId = none) ∧
          ∀ b ∈ (d.channel (m,m')).pending[k]?, b.bytes.length ≤ Proto3.maxSerializedSize))
  | .consumer m m' (.connected ok) =>
    inferInstanceAs (Decidable (ok → (d.channel (m,m')).consumer.callbacks
      (d.channel (m,m')).consumer.requestId = none))
  | .process m (.session x (.read frame)) =>
    inferInstanceAs (Decidable (d.owner m x = none → frame.1.serviceType = .kKv))
  | .process _ (.session _ (.invoke _)) => .isTrue trivial
  | .process _ (.session _ (.written _)) => .isTrue trivial
  | .process _ (.session _ .readFailed) => .isTrue trivial
  | .process _ (.session _ .readerClosed) => .isTrue trivial
  | .process _ (.session _ .pop) => .isTrue trivial
  | .process _ (.session _ .writerClosed) => .isTrue trivial
  | .process _ .accept => .isTrue trivial
  | .process _ .electionTimeout => .isTrue trivial
  | .process _ .heartbeatTimeout => .isTrue trivial
  | .process _ (.callback ..) => .isTrue trivial
  | .process _ .sessionAt => .isTrue trivial
  | .process _ .push => .isTrue trivial
  | .process _ .shutdown => .isTrue trivial
  | .consumer _ _ .call => .isTrue trivial
  | .consumer _ _ (.written _) => .isTrue trivial
  | .consumer _ _ .returned => .isTrue trivial
  | .consumer _ _ (.received _) => .isTrue trivial
  | .consumer _ _ .callbackReturned => .isTrue trivial
  | .consumer _ _ .stopped => .isTrue trivial
  | .consumer _ _ .shutdown => .isTrue trivial
  | .consumer _ _ .shutdownReturned => .isTrue trivial
  | .accept .. => .isTrue trivial
  | .callback .. => .isTrue trivial

instance {P : Cluster → Packet → Prop} [∀ s p, Decidable (P s p)] (d : Deployment) (l : Label) :
    Decidable (d.Allowed P l) :=
  inferInstanceAs (Decidable (d.Regular l ∧ ∀ p ∈ d.delivered l, P d.observed p))

/-- A run of the members as they are deployed on empty raft stores. -/
abbrev Run (P : Cluster → Packet → Prop) (kv : MemberId → Storage) :
    List Label → Deployment → Prop :=
  Generic.Run (step C) (Allowed P) (init kv)

end Steps
end Deployment
end Foskv.Raft
