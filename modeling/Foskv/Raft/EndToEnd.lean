import Foskv.Raft.Exchanges
import Foskv.Rpc.Consumer

/-! A client's `RpcConsumer` and the process of a node, over connections that keep the order of
frames and may break at any time: what the callbacks of the client get is what the process has
made of their calls. -/
namespace Foskv.Raft

/-- A consumer and a process. The frames in flight are kept for each connection of the consumer;
sessions of other clients have no such connection. -/
structure Link where
  consumer : Rpc.RpcConsumer
  process : Process
  /-- The connection that a session was assigned to. -/
  connection : ℕ → Option ℕ
  up : ℕ → List Rpc.RequestFrame
  down : ℕ → List Rpc.ResponseFrame
  /-- The functions that the process has called, with their results. -/
  invoked : List (ℕ × SessionTask × Result Bytes)
  executed : List (ApplyTask × InvokeTask)

inductive LinkLabel
  | consumer (l : Rpc.RpcConsumer.Label)
  /-- The provider accepts a connection of the consumer. -/
  | accept (connection : ℕ)
  | process (l : Process.Label)

namespace Link

def init (n : RaftNode) : Link where
  consumer := .init
  process := .init n
  connection _ := none
  up _ := []
  down _ := []
  invoked := []
  executed := []

/-- The consumer takes a step. A request is in flight once all its bytes are written, and the
responses of the last connection arrive in order. -/
def consumerStep (calls : ℕ → Rpc.Call) (s : Link) (l : Rpc.RpcConsumer.Label) : Option Link :=
  (s.consumer.step l).bind fun consumer =>
    match l with
    | .written true =>
      match s.consumer.holder with
      | some (.writing call requestId) => some { s with
          consumer := consumer
          up := Function.update s.up s.consumer.connection
            (s.up s.consumer.connection ++ [(calls call).frame requestId]) }
      | _ => none
    | .received (.ok frame) =>
      match s.down s.consumer.connection with
      | first::rest =>
        if first = frame then some { s with
          consumer := consumer
          down := Function.update s.down s.consumer.connection rest }
        else none
      | [] => none
    | _ => some { s with consumer := consumer }

section Process
variable [Protobuf] [PeerProtobuf]

/-- The process takes a step. The reader of a session gets the requests of its connection in
order, and none that is too large. -/
def processStep (cfg : RaftConfig) (s : Link) (l : Process.Label) : Option Link :=
  (s.process.step cfg l).bind fun process =>
    let next : Link := { s with
      process := process
      invoked := s.invoked ++ (s.process.invocation cfg l).toList
      executed := s.executed ++ process.executed l }
    match l with
    | .session x (.read frame) =>
      match s.connection x with
      | none => some next
      | some c =>
        match s.up c with
        | first::rest =>
          if first = frame ∧ frame.2.length ≤ Rpc.maxRpcMessageSize then
            some { next with up := Function.update s.up c rest }
          else none
        | [] => none
    | .session x (.written true) =>
      match s.connection x with
      | some c => some { next with
          down := Function.update s.down c
            (s.down c ++ (s.process.session x).writtenBy (.written true)) }
      | none => some next
    | _ => some next

def step (calls : ℕ → Rpc.Call) (cfg : RaftConfig) (s : Link) : LinkLabel → Option Link
  | .consumer l => s.consumerStep calls l
  | .accept c =>
    if c ≠ 0 ∧ c ≤ s.consumer.connection ∧
        ∀ x ∈ List.range s.process.sessionId, s.connection x ≠ some c then
      (s.process.step cfg .accept).map fun process => { s with
        process := process
        connection := Function.update s.connection s.process.sessionId (some c) }
    else none
  | .process l => s.processStep cfg l

end Process

/-- `call()` stores its callback under an id that has no entry, and the length of what it writes
fits the field of the header. -/
def Regular (calls : ℕ → Rpc.Call) (s : Link) : LinkLabel → Prop
  | .consumer .call =>
    s.consumer.streamValid ∨ s.consumer.isRunning → s.consumer.callbacks s.consumer.requestId = none
  | .consumer (.connected ok) => ok → s.consumer.callbacks s.consumer.requestId = none
  | .consumer (.written _) => match s.consumer.holder with
    | some (.writing call _) => (calls call).reqPayload.length < 2 ^ 32
    | _ => True
  | _ => True

instance (calls : ℕ → Rpc.Call) (s : Link) (l : LinkLabel) : Decidable (s.Regular calls l) :=
  match l with
  | .consumer .call => inferInstanceAs (Decidable (s.consumer.streamValid ∨ s.consumer.isRunning →
      s.consumer.callbacks s.consumer.requestId = none))
  | .consumer (.connected ok) => inferInstanceAs
      (Decidable (ok → s.consumer.callbacks s.consumer.requestId = none))
  | .consumer (.written _) =>
    match h : s.consumer.holder with
    | some (.writing call _) => decidable_of_iff ((calls call).reqPayload.length < 2 ^ 32)
        (by simp [Regular, h])
    | none => .isTrue (by simp [Regular, h])
    | some (.connecting _) => .isTrue (by simp [Regular, h])
    | some (.returning _) => .isTrue (by simp [Regular, h])
    | some .shuttingDown => .isTrue (by simp [Regular, h])
  | .consumer .returned => .isTrue trivial
  | .consumer (.received _) => .isTrue trivial
  | .consumer .callbackReturned => .isTrue trivial
  | .consumer .stopped => .isTrue trivial
  | .consumer .shutdown => .isTrue trivial
  | .consumer .shutdownReturned => .isTrue trivial
  | .accept _ => .isTrue trivial
  | .process _ => .isTrue trivial

/-- Every callback is invoked once at most, for a call that returned no error, and with what the
process has made of the request of that call. -/
structure EndToEnd [PeerProtobuf] [Protobuf] (calls : ℕ → Rpc.Call) (s : Link) : Prop where
  paired : s.consumer.Paired
  answered : ∀ d ∈ s.consumer.delivered, ∃ x, s.connection x = some d.connection ∧
    Process.Answers s.invoked s.executed x (calls d.call) d.requestId d.respPayload

/-- What a step of the process does to the connections. -/
structure Passes [Protobuf] [PeerProtobuf] (cfg : RaftConfig) (s : Link) (l : Process.Label)
    (s' : Link) : Prop where
  process : s.process.step cfg l = some s'.process
  consumer : s'.consumer = s.consumer
  connection : s'.connection = s.connection
  invoked : s'.invoked = s.invoked ++ (s.process.invocation cfg l).toList
  executed : s'.executed = s.executed ++ s'.process.executed l
  up : ∀ x c, s.connection x = some c → s.up c = Process.readBy l x ++ s'.up c
  down : ∀ x c, s.connection x = some c → s'.down c = s.down c ++ s.process.writtenBy l x
  others : ∀ c, (∀ x, s.connection x ≠ some c) → s'.up c = s.up c ∧ s'.down c = s.down c

section Steps
variable [Protobuf] [PeerProtobuf] {cfg : RaftConfig} {calls : ℕ → Rpc.Call} {s s' : Link}

/-- Nothing is read or written on a connection. -/
theorem Passes.quiet {l : Process.Label} {process : Process}
    (hprocess : s.process.step cfg l = some process)
    (hnone : ∀ x c, s.connection x = some c →
      Process.readBy l x = [] ∧ s.process.writtenBy l x = []) : s.Passes cfg l { s with
        process := process
        invoked := s.invoked ++ (s.process.invocation cfg l).toList
        executed := s.executed ++ process.executed l } where
  process := hprocess
  consumer := rfl
  connection := rfl
  invoked := rfl
  executed := rfl
  up x c hx := by
    rw [(hnone x c hx).1]
    rfl
  down x c hx := by
    rw [(hnone x c hx).2]
    exact (List.append_nil _).symm
  others _ _ := ⟨rfl,rfl⟩

theorem processStep_passes {l : Process.Label}
    (hown : ∀ x y c, s.connection x = some c → s.connection y = some c → x = y)
    (h : s.processStep cfg l = some s') : s.Passes cfg l s' := by
  obtain ⟨process,hprocess,h⟩ := Option.bind_eq_some_iff.mp h
  have hnone : ∀ {y x c}, s.connection y = none → s.connection x = some c → y ≠ x := by
    rintro y x c hy hx rfl
    rw [hx] at hy
    cases hy
  cases l with
  | session y action =>
    cases action with
    | read frame =>
      cases hy : s.connection y with
      | none =>
        simp only [hy, Option.some.injEq] at h
        subst h
        exact .quiet hprocess fun x c hx => ⟨if_neg (hnone hy hx),ite_self _⟩
      | some c =>
        simp only [hy] at h
        split at h
        · rename_i first rest hup
          split_ifs at h with hfirst
          obtain ⟨rfl,-⟩ := hfirst
          cases h
          refine ⟨hprocess,rfl,rfl,rfl,rfl,fun x c' hx => ?_,fun x c' hx => ?_,
            fun c' hc => ⟨?_,rfl⟩⟩
          · by_cases hxy : y = x
            · subst hxy
              obtain rfl : c = c' := Option.some.inj (hy.symm.trans hx)
              simp [Process.readBy, hup]
            · have hne : c' ≠ c := fun hc => hxy (hown y x c hy (hc ▸ hx))
              simp [Process.readBy, hxy, hne]
          · have hwritten : s.process.writtenBy (.session y (.read first)) x = [] := ite_self _
            rw [hwritten]
            exact (List.append_nil _).symm
          · exact Function.update_of_ne (fun hc' : c' = c => hc y (hc' ▸ hy)) _ _
        · cases h
    | written ok =>
      cases ok with
      | false =>
        cases h
        exact .quiet hprocess fun _ _ _ => ⟨rfl,ite_self _⟩
      | true =>
        cases hy : s.connection y with
        | none =>
          simp only [hy, Option.some.injEq] at h
          subst h
          exact .quiet hprocess fun x c hx => ⟨rfl,if_neg (hnone hy hx)⟩
        | some c =>
          simp only [hy, Option.some.injEq] at h
          subst h
          refine ⟨hprocess,rfl,rfl,rfl,rfl,fun _ _ _ => rfl,fun x c' hx => ?_,
            fun c' hc => ⟨rfl,?_⟩⟩
          · by_cases hxy : y = x
            · subst hxy
              obtain rfl : c = c' := Option.some.inj (hy.symm.trans hx)
              simp [Process.writtenBy]
            · have hne : c' ≠ c := fun hc => hxy (hown y x c hy (hc ▸ hx))
              simp [Process.writtenBy, hxy, hne]
          · exact Function.update_of_ne (fun hc' : c' = c => hc y (hc' ▸ hy)) _ _
    | _ =>
      cases h
      exact .quiet hprocess fun _ _ _ => ⟨rfl,ite_self _⟩
  | _ =>
    cases h
    exact .quiet hprocess fun _ _ _ => ⟨rfl,rfl⟩

/-- What a step of the consumer does to the connections. -/
inductive Sends (calls : ℕ → Rpc.Call) (s : Link) : Rpc.RpcConsumer.Label → Link → Prop
  | quiet {l consumer} (outside : l ≠ .written true ∧ ∀ frame, l ≠ .received (.ok frame)) :
      Sends calls s l { s with consumer := consumer }
  | sends {consumer call requestId}
      (hholder : s.consumer.holder = some (.writing call requestId)) :
      Sends calls s (.written true) { s with
        consumer := consumer
        up := Function.update s.up s.consumer.connection
          (s.up s.consumer.connection ++ [(calls call).frame requestId]) }
  | receives {consumer frame rest} (hdown : s.down s.consumer.connection = frame::rest) :
      Sends calls s (.received (.ok frame)) { s with
        consumer := consumer
        down := Function.update s.down s.consumer.connection rest }

omit [Protobuf] [PeerProtobuf] in
theorem consumerStep_sends {l : Rpc.RpcConsumer.Label} (h : s.consumerStep calls l = some s') :
    s.consumer.step l = some s'.consumer ∧ s.Sends calls l s' := by
  obtain ⟨consumer,hconsumer,h⟩ := Option.bind_eq_some_iff.mp h
  split at h
  · split at h
    · rename_i call requestId hholder
      cases h
      exact ⟨hconsumer,.sends hholder⟩
    · cases h
  · rename_i frame
    split at h
    · rename_i first rest hdown
      split_ifs at h with hfirst
      subst hfirst
      cases h
      exact ⟨hconsumer,.receives hdown⟩
    · cases h
  · rename_i hwritten hreceived
    cases h
    exact ⟨hconsumer,.quiet ⟨hwritten,hreceived⟩⟩

end Steps

/-- The calls whose responses the consumer awaits under an id. -/
def Awaited (calls : ℕ → Rpc.Call) (consumer : Rpc.RpcConsumer) (r : UInt64) (call : Rpc.Call) :
    Prop :=
  r ∈ consumer.outstanding ∧ ∃ k, consumer.callbacks r = some (some k) ∧ call = calls k

def requestIds (frames : List Rpc.RequestFrame) : Multiset UInt64 :=
  ↑(frames.map fun frame => frame.1.requestId)

def responseIds (frames : List Rpc.ResponseFrame) : Multiset UInt64 :=
  ↑(frames.map fun frame => frame.1.requestId)

theorem mem_requestIds {frames : List Rpc.RequestFrame} {frame : Rpc.RequestFrame}
    (h : frame ∈ frames) : frame.1.requestId ∈ requestIds frames :=
  Multiset.mem_coe.mpr (List.mem_map.mpr ⟨frame,h,rfl⟩)

theorem mem_responseIds {frames : List Rpc.ResponseFrame} {frame : Rpc.ResponseFrame}
    (h : frame ∈ frames) : frame.1.requestId ∈ responseIds frames :=
  Multiset.mem_coe.mpr (List.mem_map.mpr ⟨frame,h,rfl⟩)

section Invariants
variable [Protobuf] [PeerProtobuf] {cfg : RaftConfig} {calls : ℕ → Rpc.Call} {s s' : Link}

/-- The last connection of the consumer: an outstanding id is on its way at one place at most,
for the call whose callback is stored under it. -/
structure Current (calls : ℕ → Rpc.Call) (s : Link) : Prop where
  counted : ∀ x, s.connection x = some s.consumer.connection →
    requestIds (s.up s.consumer.connection) + s.process.pendingIds x +
      responseIds (s.down s.consumer.connection) ≤ ↑s.consumer.outstanding
  unserved : (∀ x, s.connection x ≠ some s.consumer.connection) →
    requestIds (s.up s.consumer.connection) ≤ ↑s.consumer.outstanding ∧
      s.down s.consumer.connection = []
  requests : ∀ frame ∈ s.up s.consumer.connection, ∀ call,
    Awaited calls s.consumer frame.1.requestId call → frame = call.frame frame.1.requestId
  exchanges : ∀ x, s.connection x = some s.consumer.connection →
    s.process.Exchanges x (Awaited calls s.consumer) s.invoked s.executed
  responses : ∀ x, s.connection x = some s.consumer.connection →
    ∀ frame ∈ s.down s.consumer.connection, ∀ call,
      Awaited calls s.consumer frame.1.requestId call →
      Process.Answers s.invoked s.executed x call frame.1.requestId frame.2

namespace Current

/-- The consumer awaits nothing new. -/
theorem of_consumer (h : s.Current calls) {consumer : Rpc.RpcConsumer}
    (hconnection : consumer.connection = s.consumer.connection)
    (houtstanding : consumer.outstanding = s.consumer.outstanding)
    (hcallbacks : ∀ r ∈ s.consumer.outstanding, ∀ k, consumer.callbacks r = some (some k) →
      s.consumer.callbacks r = some (some k)) :
    Current calls { s with consumer := consumer } := by
  have hawaited : ∀ r call, Awaited calls consumer r call → Awaited calls s.consumer r call := by
    rintro r call ⟨hr,k,hk,rfl⟩
    rw [houtstanding] at hr
    exact ⟨hr,k,hcallbacks r hr k hk,rfl⟩
  constructor
  · dsimp only
    rw [hconnection, houtstanding]
    exact h.counted
  · dsimp only
    rw [hconnection, houtstanding]
    exact h.unserved
  · dsimp only
    rw [hconnection]
    exact fun frame hf call hc => h.requests frame hf call (hawaited _ _ hc)
  · dsimp only
    rw [hconnection]
    exact fun x hx => (h.exchanges x hx).mono hawaited (fun _ => id) fun _ => id
  · dsimp only
    rw [hconnection]
    exact fun x hx frame hf call hc => h.responses x hx frame hf call (hawaited _ _ hc)

/-- Nothing has been sent on the last connection yet. -/
theorem fresh (hserved : ∀ x, s.connection x ≠ some s.consumer.connection)
    (hup : s.up s.consumer.connection = []) (hdown : s.down s.consumer.connection = []) :
    s.Current calls where
  counted x hx := absurd hx (hserved x)
  unserved _ := by
    rw [hup]
    exact ⟨Multiset.zero_le _,hdown⟩
  requests frame hf := by
    rw [hup] at hf
    cases hf
  exchanges x hx := absurd hx (hserved x)
  responses x hx := absurd hx (hserved x)

theorem requests_le (h : s.Current calls) :
    requestIds (s.up s.consumer.connection) ≤ ↑s.consumer.outstanding := by
  by_cases hserved : ∃ x, s.connection x = some s.consumer.connection
  · obtain ⟨x,hx⟩ := hserved
    rw [← add_zero (requestIds _)]
    refine le_trans ?_ (h.counted x hx)
    rw [add_assoc]
    exact Multiset.add_le_add_left (Multiset.zero_le _)
  · exact (h.unserved (not_exists.mp hserved)).1

theorem pending_le (h : s.Current calls) {x : ℕ}
    (hx : s.connection x = some s.consumer.connection) :
    s.process.pendingIds x ≤ ↑s.consumer.outstanding :=
  (Multiset.le_add_left _ _).trans ((Multiset.le_add_right _ _).trans (h.counted x hx))

/-- The ids of the responses are outstanding, and their session is open. -/
theorem outstanding (h : s.Current calls) {frame : Rpc.ResponseFrame}
    (hf : frame ∈ s.down s.consumer.connection) :
    frame.1.requestId ∈ s.consumer.outstanding ∧
      ∃ x, s.connection x = some s.consumer.connection := by
  have hserved : ∃ x, s.connection x = some s.consumer.connection := by
    by_contra hno
    rw [(h.unserved (not_exists.mp hno)).2] at hf
    cases hf
  obtain ⟨x,hx⟩ := hserved
  refine ⟨?_,x,hx⟩
  exact Multiset.mem_coe.mp (Multiset.mem_of_le (h.counted x hx)
    (Multiset.mem_add.mpr (Or.inr (mem_responseIds hf))))

/-- A request is written under an id that is not outstanding. -/
theorem written (h : s.Current calls) {consumer : Rpc.RpcConsumer} {call : ℕ} {requestId : UInt64}
    (hconnection : consumer.connection = s.consumer.connection)
    (houtstanding : consumer.outstanding = s.consumer.outstanding ++ [requestId])
    (hcallbacks : consumer.callbacks = s.consumer.callbacks)
    (hstored : s.consumer.callbacks requestId = some (some call))
    (hnew : requestId ∉ s.consumer.outstanding) : Current calls { s with
      consumer := consumer
      up := Function.update s.up s.consumer.connection
        (s.up s.consumer.connection ++ [(calls call).frame requestId]) } := by
  have hawaited : ∀ r c, Awaited calls consumer r c → Awaited calls s.consumer r c ∨
      r = requestId ∧ c = calls call := by
    rintro r c ⟨hr,k,hk,rfl⟩
    rw [houtstanding] at hr
    rw [hcallbacks] at hk
    obtain hr | hr := List.mem_append.mp hr
    · exact Or.inl ⟨hr,k,hk,rfl⟩
    · obtain rfl := List.mem_singleton.mp hr
      rw [hstored] at hk
      cases hk
      exact Or.inr ⟨rfl,rfl⟩
  have hids : requestIds (s.up s.consumer.connection ++ [(calls call).frame requestId]) =
      requestId ::ₘ requestIds (s.up s.consumer.connection) := by
    rw [requestIds, List.map_append]
    exact coe_append_singleton _ _
  constructor
  · dsimp only
    rw [hconnection, houtstanding, Function.update_self, hids, coe_append_singleton]
    intro x hx
    rw [Multiset.cons_add, Multiset.cons_add]
    exact Multiset.cons_le_cons _ (h.counted x hx)
  · dsimp only
    rw [hconnection, houtstanding, Function.update_self, hids, coe_append_singleton]
    exact fun hx => ⟨Multiset.cons_le_cons _ (h.unserved hx).1,(h.unserved hx).2⟩
  · dsimp only
    rw [hconnection, Function.update_self]
    intro frame hf c hc
    obtain hf | hf := List.mem_append.mp hf
    · obtain hc | ⟨hr,-⟩ := hawaited _ _ hc
      · exact h.requests frame hf c hc
      · exact absurd (Multiset.mem_coe.mp (Multiset.mem_of_le h.requests_le
          (mem_requestIds hf))) (hr ▸ hnew)
    · obtain rfl := List.mem_singleton.mp hf
      obtain ⟨hr,-⟩ | ⟨-,rfl⟩ := hawaited _ _ hc
      · exact absurd hr hnew
      · rfl
  · dsimp only
    rw [hconnection]
    intro x hx
    refine (h.exchanges x hx).widen fun r c hc hr => ?_
    obtain hc | ⟨rfl,-⟩ := hawaited _ _ hc
    · exact hc
    · exact absurd (Multiset.mem_coe.mp (Multiset.mem_of_le (h.pending_le hx) hr)) hnew
  · dsimp only
    rw [hconnection]
    intro x hx frame hf c hc
    obtain hc | ⟨hr,-⟩ := hawaited _ _ hc
    · exact h.responses x hx frame hf c hc
    · exact absurd (hr ▸ (h.outstanding hf).1) hnew

/-- A response arrives and its id is not outstanding any more. -/
theorem received (h : s.Current calls) {consumer : Rpc.RpcConsumer} {frame : Rpc.ResponseFrame}
    {rest : List Rpc.ResponseFrame} (hdown : s.down s.consumer.connection = frame::rest)
    (hconnection : consumer.connection = s.consumer.connection)
    (houtstanding : consumer.outstanding = s.consumer.outstanding.erase frame.1.requestId)
    (hcallbacks : ∀ r k, consumer.callbacks r = some (some k) →
      s.consumer.callbacks r = some (some k)) : Current calls { s with
      consumer := consumer
      down := Function.update s.down s.consumer.connection rest } := by
  have hawaited : ∀ r c, Awaited calls consumer r c → Awaited calls s.consumer r c := by
    rintro r c ⟨hr,k,hk,rfl⟩
    rw [houtstanding] at hr
    exact ⟨List.mem_of_mem_erase hr,k,hcallbacks r k hk,rfl⟩
  have hserved : ∃ x, s.connection x = some s.consumer.connection :=
    (h.outstanding (hdown ▸ List.mem_cons_self)).2
  constructor
  · dsimp only
    rw [hconnection, houtstanding, Function.update_self, ← Multiset.coe_erase]
    intro x hx
    have hle := h.counted x hx
    rw [hdown] at hle
    have hids : responseIds (frame::rest) = frame.1.requestId ::ₘ responseIds rest := rfl
    rw [hids, Multiset.add_cons] at hle
    have herase := Multiset.erase_le_erase frame.1.requestId hle
    rwa [Multiset.erase_cons_head] at herase
  · dsimp only
    rw [hconnection]
    intro hno
    obtain ⟨x,hx⟩ := hserved
    exact absurd hx (hno x)
  · dsimp only
    rw [hconnection]
    exact fun frame hf c hc => h.requests frame hf c (hawaited _ _ hc)
  · dsimp only
    rw [hconnection]
    exact fun x hx => (h.exchanges x hx).mono hawaited (fun _ => id) fun _ => id
  · dsimp only
    rw [hconnection, Function.update_self]
    exact fun x hx frame' hf c hc =>
      h.responses x hx frame' (hdown ▸ List.mem_cons_of_mem _ hf) c (hawaited _ _ hc)

/-- The process takes a step. -/
theorem process (h : s.Current calls) {l : Process.Label} (hs : s.Passes cfg l s')
    (hhanding : ∀ done ∈ s.process.handing, done ∈ s.executed) : s'.Current calls := by
  have hinvoked : s.invoked ⊆ s'.invoked := hs.invoked ▸ List.subset_append_left _ _
  have hexecuted : s.executed ⊆ s'.executed := hs.executed ▸ List.subset_append_left _ _
  constructor
  · rw [hs.connection, hs.consumer]
    intro x hx
    have hcounted := h.counted x hx
    have hpending := Process.step_pendingIds hs.process x
    rw [hs.up x _ hx] at hcounted
    have hup : requestIds (Process.readBy l x ++ s'.up s.consumer.connection) =
        requestIds (Process.readBy l x) + requestIds (s'.up s.consumer.connection) := by
      simp [requestIds]
    have hdown : responseIds (s'.down s.consumer.connection) =
        responseIds (s.down s.consumer.connection) + responseIds (s.process.writtenBy l x) := by
      rw [hs.down x _ hx]
      simp [responseIds]
    calc requestIds (s'.up s.consumer.connection) + s'.process.pendingIds x +
          responseIds (s'.down s.consumer.connection)
        = requestIds (s'.up s.consumer.connection) +
            responseIds (s.down s.consumer.connection) +
              (s'.process.pendingIds x + responseIds (s.process.writtenBy l x)) := by
          rw [hdown]
          ac_rfl
      _ ≤ requestIds (s'.up s.consumer.connection) +
            responseIds (s.down s.consumer.connection) +
              (requestIds (Process.readBy l x) + s.process.pendingIds x) :=
          Multiset.add_le_add_left hpending
      _ = requestIds (Process.readBy l x ++ s'.up s.consumer.connection) +
            s.process.pendingIds x + responseIds (s.down s.consumer.connection) := by
          rw [hup]
          ac_rfl
      _ ≤ ↑s.consumer.outstanding := hcounted
  · rw [hs.connection, hs.consumer]
    intro hno
    rw [(hs.others _ hno).1, (hs.others _ hno).2]
    exact h.unserved hno
  · rw [hs.consumer]
    intro frame hf
    by_cases hserved : ∃ x, s.connection x = some s.consumer.connection
    · obtain ⟨x,hx⟩ := hserved
      exact h.requests frame (hs.up x _ hx ▸ List.mem_append_right _ hf)
    · exact h.requests frame ((hs.others _ (not_exists.mp hserved)).1 ▸ hf)
  · rw [hs.connection, hs.consumer]
    intro x hx
    refine ((h.exchanges x hx).mono (fun _ _ => id) hinvoked hexecuted).step hs.process
      (hs.invoked ▸ List.subset_append_right _ _) (fun done hd => hexecuted (hhanding done hd)) ?_
    intro frame hl
    exact h.requests frame (hs.up x _ hx ▸ List.mem_append_left _ (Process.mem_readBy hl))
  · rw [hs.connection, hs.consumer]
    intro x hx frame hf call hc
    rw [hs.down x _ hx] at hf
    obtain hf | hf := List.mem_append.mp hf
    · exact (h.responses x hx frame hf call hc).mono hinvoked hexecuted
    · obtain ⟨origin,hwriter⟩ := Process.mem_writtenBy hf
      exact ((h.exchanges x hx).responding frame origin hwriter call hc).mono hinvoked hexecuted

/-- The provider accepts a connection. -/
theorem accept (h : s.Current calls) {process : Process} {c : ℕ}
    (haccounted : s.process.Accounted) (hnew : s.process.session s.process.sessionId = .new)
    (hopened : s.connection s.process.sessionId = none) (hfree : ∀ x, s.connection x ≠ some c)
    (hstep : s.process.step cfg .accept = some process) : Current calls { s with
      process := process
      connection := Function.update s.connection s.process.sessionId (some c) } := by
  obtain ⟨hsession,hwaiting⟩ : process.session = s.process.session ∧
      process.waiting = s.process.waiting := by
    cases hstep
    exact ⟨rfl,rfl⟩
  have hpending : ∀ x, process.pendingIds x = s.process.pendingIds x := by
    intro x
    rw [Process.pendingIds, Process.pendingIds, hsession, hwaiting]
  have hserved : ∀ {x}, Function.update s.connection s.process.sessionId (some c) x =
      some s.consumer.connection → s.connection x = some s.consumer.connection ∨
        x = s.process.sessionId ∧ c = s.consumer.connection := by
    intro x hx
    by_cases hxs : x = s.process.sessionId
    · subst hxs
      rw [Function.update_self] at hx
      exact Or.inr ⟨rfl,Option.some.inj hx⟩
    · exact Or.inl (Function.update_of_ne hxs (some c) s.connection ▸ hx)
  constructor
  · intro x hx
    dsimp only
    rw [hpending]
    obtain hx | ⟨rfl,rfl⟩ := hserved hx
    · exact h.counted x hx
    · obtain ⟨hup,hdown⟩ := h.unserved hfree
      rw [haccounted.pending_new hnew, hdown, add_zero]
      exact (add_zero _).trans_le hup
  · intro hno
    refine h.unserved fun x hx => ?_
    by_cases hxs : x = s.process.sessionId
    · subst hxs
      rw [hopened] at hx
      cases hx
    · exact hno x ((Function.update_of_ne hxs (some c) s.connection).trans hx)
  · exact h.requests
  · intro x hx
    obtain hx | ⟨rfl,-⟩ := hserved hx
    · exact Process.Carries.of_session (h.exchanges x hx) (by rw [hsession])
        fun t ht => Or.inl (hwaiting ▸ ht)
    · refine Process.Carries.new (by rw [hsession, hnew]) ?_
      rw [hwaiting]
      have hdue := haccounted.due_new hnew
      rw [Process.due] at hdue
      exact Multiset.le_zero.mp ((Multiset.le_add_left _ _).trans hdue.le)
  · intro x hx
    obtain hx | ⟨-,rfl⟩ := hserved hx
    · exact h.responses x hx
    · intro frame hf
      dsimp only at hf
      rw [(h.unserved hfree).2] at hf
      cases hf

end Current

/-- Only the calls that have been made matter. -/
theorem Current.congr {calls' : ℕ → Rpc.Call} (h : s.Current calls) (htracked : s.consumer.Tracked)
    (hcalls : ∀ k < s.consumer.calls, calls' k = calls k) : s.Current calls' := by
  have hawaited : Awaited calls' s.consumer = Awaited calls s.consumer := by
    funext r call
    apply propext
    constructor
    · rintro ⟨hr,k,hk,rfl⟩
      exact ⟨hr,k,hk,hcalls k (htracked.stored r k hk).1⟩
    · rintro ⟨hr,k,hk,rfl⟩
      exact ⟨hr,k,hk,(hcalls k (htracked.stored r k hk).1).symm⟩
  exact {
    counted := h.counted
    unserved := h.unserved
    requests := hawaited ▸ h.requests
    exchanges := hawaited ▸ h.exchanges
    responses := hawaited ▸ h.responses }

/-- What holds in every run over a connection. -/
structure Linked (calls : ℕ → Rpc.Call) (s : Link) : Prop where
  accounted : s.process.Accounted
  unopened : ∀ x, s.process.sessionId ≤ x → s.process.session x = .new
  opened : ∀ x c, s.connection x = some c → x < s.process.sessionId ∧ c ≤ s.consumer.connection
  own : ∀ x y c, s.connection x = some c → s.connection y = some c → x = y
  later : ∀ c, s.consumer.connection < c → s.up c = [] ∧ s.down c = []
  handing : ∀ done ∈ s.process.handing.toList ++ s.process.applying, done ∈ s.executed
  tracked : s.consumer.Tracked
  held : s.consumer.Held
  matched : s.consumer.Matched
  current : s.consumer.Awake → s.Current calls
  delivered : ∀ d ∈ s.consumer.delivered, ∃ x, s.connection x = some d.connection ∧
    Process.Answers s.invoked s.executed x (calls d.call) d.requestId d.respPayload

namespace Linked

theorem init {n : RaftNode} (htasks : n.stateMachine.tasks = []) : (init n).Linked calls where
  accounted := .init htasks
  unopened _ _ := rfl
  opened _ _ h := nomatch h
  own _ _ _ h := nomatch h
  later _ _ := ⟨rfl,rfl⟩
  handing _ h := nomatch h
  tracked := by constructor <;> simp [Link.init, Rpc.RpcConsumer.init]
  held := .of_holder nofun nofun
  matched := .of_not_awake (fun ha => ha.1 rfl) nofun
  current ha := absurd rfl ha.1
  delivered _ h := nomatch h

theorem congr {calls' : ℕ → Rpc.Call} (h : s.Linked calls)
    (hcalls : ∀ k < s.consumer.calls, calls' k = calls k) : s.Linked calls' :=
  { h with
    current := fun ha => (h.current ha).congr h.tracked hcalls
    delivered := fun d hd => by
      rw [hcalls d.call (h.tracked.invoked d hd)]
      exact h.delivered d hd }

/-- The process takes a step. -/
theorem process (h : s.Linked calls) {l : Process.Label} (hpasses : s.Passes cfg l s') :
    s'.Linked calls := by
  obtain ⟨hids,hunopened⟩ := Process.step_unopened h.accounted hpasses.process h.unopened
  have hexecuted : s.executed ⊆ s'.executed := hpasses.executed ▸ List.subset_append_left _ _
  exact {
    accounted := h.accounted.step (Process.step_due hpasses.process)
    unopened := hunopened
    opened := fun x c hx => by
      rw [hpasses.connection] at hx
      rw [hpasses.consumer]
      exact ⟨(h.opened x c hx).1.trans_le hids,(h.opened x c hx).2⟩
    own := hpasses.connection ▸ h.own
    later := fun c hc => by
      rw [hpasses.consumer] at hc
      have hno : ∀ x, s.connection x ≠ some c := fun x hx =>
        absurd (h.opened x c hx).2 (Nat.not_le.mpr hc)
      rw [(hpasses.others c hno).1, (hpasses.others c hno).2]
      exact h.later c hc
    handing := fun done hd => by
      obtain hd | hd := Process.step_handing hpasses.process done hd
      · exact hexecuted (h.handing done hd)
      · exact hpasses.executed ▸ List.mem_append_right _ hd
    tracked := hpasses.consumer ▸ h.tracked
    held := hpasses.consumer ▸ h.held
    matched := hpasses.consumer ▸ h.matched
    current := fun ha => (h.current (hpasses.consumer ▸ ha)).process hpasses fun done hd =>
      h.handing done (List.mem_append_left _ (Option.mem_toList.mpr hd))
    delivered := fun d hd => by
      rw [hpasses.consumer] at hd
      obtain ⟨x,hx,hanswers⟩ := h.delivered d hd
      exact ⟨x,hpasses.connection ▸ hx,
        hanswers.mono (hpasses.invoked ▸ List.subset_append_left _ _) hexecuted⟩ }

theorem unopened_connection (h : s.Linked calls) : s.connection s.process.sessionId = none := by
  cases hc : s.connection s.process.sessionId with
  | none => rfl
  | some c => exact absurd (h.opened _ c hc).1 (Nat.lt_irrefl _)

/-- The provider accepts a connection. -/
theorem accept (h : s.Linked calls) {process : Process} {c : ℕ}
    (hprocess : s.process.step cfg .accept = some process) (hle : c ≤ s.consumer.connection)
    (hfree : ∀ x, s.connection x ≠ some c) : Linked calls { s with
      process := process
      connection := Function.update s.connection s.process.sessionId (some c) } := by
  have hkeep : ∀ {x d}, s.connection x = some d →
      Function.update s.connection s.process.sessionId (some c) x = some d := by
    intro x d hx
    rw [Function.update_of_ne (h.opened x d hx).1.ne, hx]
  have hcases : ∀ {x d}, Function.update s.connection s.process.sessionId (some c) x = some d →
      s.connection x = some d ∨ x = s.process.sessionId ∧ c = d := by
    intro x d hx
    by_cases hxs : x = s.process.sessionId
    · subst hxs
      rw [Function.update_self] at hx
      exact Or.inr ⟨rfl,Option.some.inj hx⟩
    · exact Or.inl (Function.update_of_ne hxs (some c) s.connection ▸ hx)
  obtain ⟨hids,hunopened⟩ := Process.step_unopened h.accounted hprocess h.unopened
  have hnext : process.sessionId = s.process.sessionId + 1 := by
    cases hprocess
    rfl
  exact {
    accounted := h.accounted.step (Process.step_due hprocess)
    unopened := hunopened
    opened := fun x d hx => by
      obtain hx | ⟨rfl,rfl⟩ := hcases hx
      · exact ⟨(h.opened x d hx).1.trans_le hids,(h.opened x d hx).2⟩
      · exact ⟨hnext ▸ Nat.lt_succ_self _,hle⟩
    own := fun x y d hx hy => by
      obtain hx | ⟨rfl,rfl⟩ := hcases hx
      · obtain hy | ⟨rfl,rfl⟩ := hcases hy
        · exact h.own x y d hx hy
        · exact absurd hx (hfree x)
      · obtain hy | ⟨rfl,-⟩ := hcases hy
        · exact absurd hy (hfree y)
        · rfl
    later := h.later
    handing := fun done hd => by
      obtain hd | hd := Process.step_handing hprocess done hd
      · exact h.handing done hd
      · cases hd
    tracked := h.tracked
    held := h.held
    matched := h.matched
    current := fun ha => (h.current ha).accept h.accounted (h.unopened _ le_rfl)
      h.unopened_connection hfree hprocess
    delivered := fun d hd => by
      obtain ⟨x,hx,hanswers⟩ := h.delivered d hd
      exact ⟨x,hkeep hx,hanswers⟩ }

/-- A response that arrives answers an outstanding request. -/
theorem answered (h : s.Linked calls) {l : Rpc.RpcConsumer.Label}
    (hok : s.Regular calls (.consumer l)) (hconsumer : s.consumer.step l = some s'.consumer)
    (hsends : s.Sends calls l s') : s.consumer.Answered l := by
  cases l with
  | call => exact hok
  | connected ok => exact hok
  | received result =>
    cases result with
    | error stop => trivial
    | ok frame =>
      cases hsends with
      | quiet outside => exact absurd rfl (outside.2 frame)
      | receives hdown =>
        have hreading : s.consumer.reader = .reading := by
          cases Rpc.RpcConsumer.steps_of_step hconsumer with
          | unknown reading _ => exact reading
          | invokes reading _ => exact reading
        have ha : s.consumer.Awake := ⟨by simp [hreading],by simp [hreading]⟩
        exact Or.inr ((h.current ha).outstanding (hdown ▸ List.mem_cons_self)).1
  | _ => trivial

/-- The consumer takes a step, and the frames on older connections stay as they are. -/
theorem of_consumer (h : s.Linked calls) {l : Rpc.RpcConsumer.Label} {consumer : Rpc.RpcConsumer}
    {up : ℕ → List Rpc.RequestFrame} {down : ℕ → List Rpc.ResponseFrame}
    (hok : s.consumer.Answered l) (hstep : s.consumer.step l = some consumer)
    (hconnection : s.consumer.connection ≤ consumer.connection)
    (hother : ∀ c, s.consumer.connection < c → up c = s.up c ∧ down c = s.down c)
    (hcurrent : consumer.Awake →
      Current calls { s with consumer := consumer, up := up, down := down })
    (hdelivered : ∀ d ∈ consumer.delivered, d ∈ s.consumer.delivered ∨
      ∃ x, s.connection x = some d.connection ∧
        Process.Answers s.invoked s.executed x (calls d.call) d.requestId d.respPayload) :
    Linked calls { s with consumer := consumer, up := up, down := down } where
  accounted := h.accounted
  unopened := h.unopened
  opened x c hx := ⟨(h.opened x c hx).1,(h.opened x c hx).2.trans hconnection⟩
  own := h.own
  later c hc := by
    obtain ⟨hup,hdown⟩ := hother c (hconnection.trans_lt hc)
    exact ⟨hup.trans (h.later c (hconnection.trans_lt hc)).1,
      hdown.trans (h.later c (hconnection.trans_lt hc)).2⟩
  handing := h.handing
  tracked := (Rpc.RpcConsumer.step_tracked h.tracked h.held hstep).1
  held := (Rpc.RpcConsumer.step_tracked h.tracked h.held hstep).2
  matched := Rpc.RpcConsumer.step_matched h.held h.matched hok hstep
  current := hcurrent
  delivered d hd := (hdelivered d hd).elim (h.delivered d) id

/-- Nothing is sent or received, and no entry for an outstanding id gets another callback. -/
theorem quiet (h : s.Linked calls) {l : Rpc.RpcConsumer.Label} {consumer : Rpc.RpcConsumer}
    (hok : s.consumer.Answered l) (hstep : s.consumer.step l = some consumer)
    (hreader : consumer.Awake → s.consumer.Awake)
    (hconnection : consumer.connection = s.consumer.connection)
    (houtstanding : consumer.outstanding = s.consumer.outstanding)
    (hdelivered : consumer.delivered = s.consumer.delivered)
    (hcallbacks : s.consumer.Awake → ∀ r ∈ s.consumer.outstanding, ∀ k,
      consumer.callbacks r = some (some k) → s.consumer.callbacks r = some (some k)) :
    Linked calls { s with consumer := consumer } :=
  h.of_consumer hok hstep hconnection.ge (fun _ _ => ⟨rfl,rfl⟩)
    (fun ha => (h.current (hreader ha)).of_consumer hconnection houtstanding
      (hcallbacks (hreader ha)))
    fun _ hd => Or.inl (hdelivered ▸ hd)

/-- `call` starts; it stores its callback when the consumer is connected. -/
theorem call (h : s.Linked calls) {consumer : Rpc.RpcConsumer}
    (hok : s.consumer.Answered .call) (hstep : s.consumer.step .call = some consumer) :
    Linked calls { s with consumer := consumer } := by
  cases Rpc.RpcConsumer.call_steps hstep with
  | stores free connected =>
    refine h.quiet hok hstep id rfl rfl rfl fun ha r hr k hk => ?_
    obtain ⟨j,hj,-⟩ := h.matched.outstanding ha r hr
    have hstore := Rpc.RpcConsumer.store_callbacks
      { s.consumer with calls := s.consumer.calls + 1 } s.consumer.calls r
    rw [if_neg] at hstore
    · exact hstore.symm.trans hk
    · rintro ⟨rfl,hnone⟩
      exact absurd (hnone.symm.trans hj) nofun
  | connects free closed => exact h.quiet hok hstep id rfl rfl rfl fun _ _ _ _ hk => hk

/-- The connection that a call waits for is opened, or not. -/
theorem connected (h : s.Linked calls) {consumer : Rpc.RpcConsumer} {ok : Bool}
    (hok : s.consumer.Answered (.connected ok))
    (hstep : s.consumer.step (.connected ok) = some consumer) :
    Linked calls { s with consumer := consumer } := by
  cases Rpc.RpcConsumer.connected_steps hstep with
  | connected awaits =>
    have hlater := h.later (s.consumer.connection + 1) (Nat.lt_succ_self _)
    refine h.of_consumer hok hstep (Nat.le_succ _) (fun _ _ => ⟨rfl,rfl⟩) (fun _ => ?_)
      fun d hd => Or.inl hd
    refine .fresh (fun x hx => ?_) hlater.1 hlater.2
    exact absurd (h.opened x _ hx).2 (Nat.not_succ_le_self _)
  | connectFailed awaits => exact h.quiet hok hstep id rfl rfl rfl fun _ _ _ _ hk => hk

/-- A step that neither writes a request nor reads a response. -/
theorem outside (h : s.Linked calls) {l : Rpc.RpcConsumer.Label} {consumer : Rpc.RpcConsumer}
    (hok : s.consumer.Answered l) (hstep : s.consumer.step l = some consumer)
    (hl : l ≠ .written true ∧ ∀ frame, l ≠ .received (.ok frame)) :
    Linked calls { s with consumer := consumer } := by
  have hkeep := fun (_ : s.consumer.Awake) r (_ : r ∈ s.consumer.outstanding) k
    (hk : s.consumer.callbacks r = some (some k)) => hk
  have herase : ∀ {requestId r k}, Rpc.RpcConsumer.erase s.consumer.callbacks requestId r =
      some (some k) → s.consumer.callbacks r = some (some k) := by
    intro requestId r k hk
    rw [Rpc.RpcConsumer.erase_apply] at hk
    split_ifs at hk
    exact hk
  cases Rpc.RpcConsumer.steps_of_step hstep with
  | stores free connected => exact h.call hok hstep
  | connects free closed => exact h.call hok hstep
  | connected awaits => exact h.connected hok hstep
  | connectFailed awaits => exact h.connected hok hstep
  | written awaits => exact absurd rfl hl.1
  | writeFailed awaits => exact h.quiet hok hstep id rfl rfl rfl hkeep
  | returned => exact h.quiet hok hstep id rfl rfl rfl hkeep
  | unknown reading absent => exact absurd rfl (hl.2 _)
  | invokes reading found => exact absurd rfl (hl.2 _)
  | breaks reading => exact h.quiet hok hstep (fun ha => absurd rfl ha.2) rfl rfl rfl hkeep
  | drops requestId reading =>
    exact h.quiet hok hstep (fun ha => absurd rfl ha.2) rfl rfl rfl fun _ _ _ _ hk => herase hk
  | callbackReturned awaits =>
    exact h.quiet hok hstep (fun _ => ⟨by simp [awaits],by simp [awaits]⟩) rfl rfl rfl
      fun _ _ _ _ hk => herase hk
  | stopped stopping => exact h.quiet hok hstep (fun ha => absurd rfl ha.1) rfl rfl rfl hkeep
  | shutdownAgain => exact h.quiet hok hstep id rfl rfl rfl hkeep
  | shutdown => exact h.quiet hok hstep id rfl rfl rfl hkeep
  | shutdownReturned => exact h.quiet hok hstep id rfl rfl rfl hkeep

/-- A request is written on the current connection. -/
theorem sends (h : s.Linked calls) {consumer : Rpc.RpcConsumer} {k : ℕ} {requestId : UInt64}
    (hok : s.consumer.Answered (.written true))
    (hstep : s.consumer.step (.written true) = some consumer)
    (hholder : s.consumer.holder = some (.writing k requestId)) :
    Linked calls { s with
      consumer := consumer
      up := Function.update s.up s.consumer.connection
        (s.up s.consumer.connection ++ [(calls k).frame requestId]) } := by
  cases Rpc.RpcConsumer.steps_of_step hstep with
  | @written k' requestId' awaits =>
    obtain ⟨rfl,rfl⟩ : k = k' ∧ requestId = requestId' := by simpa [hholder] using awaits
    refine h.of_consumer hok hstep le_rfl
      (fun c hc => ⟨Function.update_of_ne hc.ne' _ _,rfl⟩) (fun ha => ?_) fun d hd => Or.inl hd
    exact (h.current ha).written rfl rfl rfl (h.matched.writing ha k requestId hholder)
      (Rpc.RpcConsumer.written_new h.held h.matched hholder hstep ha)

/-- A response is read from the current connection. -/
theorem receives (h : s.Linked calls) {consumer : Rpc.RpcConsumer} {frame : Rpc.ResponseFrame}
    {rest : List Rpc.ResponseFrame} (hok : s.consumer.Answered (.received (.ok frame)))
    (hstep : s.consumer.step (.received (.ok frame)) = some consumer)
    (hdown : s.down s.consumer.connection = frame::rest) :
    Linked calls { s with
      consumer := consumer
      down := Function.update s.down s.consumer.connection rest } := by
  have hother : ∀ c, s.consumer.connection < c → s.up c = s.up c ∧
      Function.update s.down s.consumer.connection rest c = s.down c :=
    fun c hc => ⟨rfl,Function.update_of_ne hc.ne' _ _⟩
  cases Rpc.RpcConsumer.steps_of_step hstep with
  | unknown reading absent =>
    exact h.of_consumer hok hstep le_rfl hother
      (fun ha => (h.current ha).received hdown rfl rfl fun _ _ hk => hk) fun d hd => Or.inl hd
  | @invokes _ call reading found =>
    have ha : s.consumer.Awake := ⟨by simp [reading],by simp [reading]⟩
    have hmem : frame ∈ s.down s.consumer.connection := hdown ▸ List.mem_cons_self
    obtain ⟨hout,x,hx⟩ := (h.current ha).outstanding hmem
    refine h.of_consumer hok hstep le_rfl hother (fun _ => ?_) fun d hd => ?_
    · refine (h.current ha).received hdown rfl rfl fun r k hk => ?_
      dsimp only at hk
      by_cases hr : r = frame.1.requestId
      · subst hr
        rw [Function.update_self] at hk
        cases hk
      · rwa [Function.update_of_ne hr] at hk
    · obtain hd | hd := List.mem_append.mp hd
      · exact Or.inl hd
      · obtain rfl := List.mem_singleton.mp hd
        exact Or.inr ⟨x,hx,(h.current ha).responses x hx frame hmem _ ⟨hout,call,found,rfl⟩⟩

/-- The consumer takes a step. -/
theorem consumer (h : s.Linked calls) {l : Rpc.RpcConsumer.Label}
    (hok : s.Regular calls (.consumer l)) (hconsumer : s.consumer.step l = some s'.consumer)
    (hsends : s.Sends calls l s') : s'.Linked calls := by
  have hanswered := h.answered hok hconsumer hsends
  cases hsends with
  | quiet outside => exact h.outside hanswered hconsumer outside
  | sends hholder => exact h.sends hanswered hconsumer hholder
  | receives hdown => exact h.receives hanswered hconsumer hdown

theorem step (h : s.Linked calls) {l : LinkLabel} (hok : s.Regular calls l)
    (hs : s.step calls cfg l = some s') : s'.Linked calls := by
  cases l with
  | consumer l =>
    obtain ⟨hconsumer,hsends⟩ := consumerStep_sends hs
    exact h.consumer hok hconsumer hsends
  | accept c =>
    rw [Link.step] at hs
    split_ifs at hs with hguard
    obtain ⟨process,hprocess,rfl⟩ := Option.map_eq_some_iff.mp hs
    obtain ⟨-,hle,hrange⟩ := hguard
    exact h.accept hprocess hle fun x hx =>
      hrange x (List.mem_range.mpr (h.opened x c hx).1) hx
  | process l => exact h.process (processStep_passes h.own hs)

end Linked
end Invariants

section Runs
variable [Protobuf] [PeerProtobuf] {cfg : RaftConfig} {calls : ℕ → Rpc.Call}
  {raftStore kvStore : Storage} {accepted : Bool} {n : RaftNode} {labels : List LinkLabel}
  {s : Link}

/-- In every run of a client and a node, over connections that break at any time, the callbacks
get what the node has made of their own calls. -/
theorem end_to_end (hcreate : RaftNode.create raftStore kvStore accepted = .ok n)
    (h : Generic.Run (step calls cfg) (Regular calls) (.init n) labels s) : s.EndToEnd calls := by
  have hlinked : s.Linked calls := Generic.Run.invariant (.init (Process.create_tasks hcreate))
    (fun _ hs hok hn => hs.step hok hn) h
  refine ⟨⟨hlinked.matched.delivered,hlinked.tracked.once,fun d hd => ?_⟩,hlinked.delivered⟩
  exact (hlinked.tracked.sent _ (hlinked.matched.delivered d hd)).2

end Runs

section Trio
attribute [local instance] Proto3.protobuf Proto3.peerProtobuf

/-- Every call is a put. -/
def puts (_ : ℕ) : Rpc.Call := ⟨.kKv,.kKvPut,Wire.serialize (⟨[1],[2],∅⟩ : Kv.PutRequest)⟩

/-- The first put reaches a member that is not leader and is answered at once. The connection
breaks and the second put fails. The member wins an election, and the third put, on the next
connection, is answered once another member has its entry. -/
def reconnectedPut : List LinkLabel :=
  [.consumer .call,.consumer (.connected true),.consumer (.written true),.consumer .returned,
    .accept 1,.process (.session 0 (.read ((puts 0).frame 0))),.process (.session 0 .pop),
    .process (.session 0 (.invoke .ok)),.process (.session 0 (.written true)),
    .consumer (.received (.ok (⟨0,4⟩,[10,2,16,3]))),.consumer .callbackReturned,
    .consumer (.received (.error .header)),.consumer .stopped,.consumer .call,
    .consumer (.written false),.process .electionTimeout,
    .process (.callback .ok 2 (.requestVoteReply ⟨⟨0,2,1⟩,true⟩)),.consumer .call,
    .consumer (.connected true),.consumer (.written true),.consumer .returned,.accept 2,
    .process (.session 1 (.read ((puts 2).frame 0))),.process (.session 1 .pop),
    .process (.session 1 (.invoke .ok)),
    .process (.callback .ok 2 (.appendEntriesReply .appendEntries ⟨⟨0,2,1⟩,true,1,1⟩)),
    .process .sessionAt,.process .push,.process (.session 1 .pop),
    .process (.session 1 (.invoke .ok)),.process (.session 1 (.written true)),
    .consumer (.received (.ok (⟨0,6⟩,[10,4,8,1,16,1])))]

theorem end_to_end_trio : ∃ s, Generic.Run (step puts (Cluster.trio.cfg 1)) (Regular puts)
    (.init (.fresh Storage.empty)) reconnectedPut s ∧
      s.consumer.delivered = [⟨0,1,0,[10,2,16,3]⟩,⟨2,2,0,[10,4,8,1,16,1]⟩] ∧
        s.EndToEnd puts := by
  obtain ⟨s,hs,hdelivered⟩ : ∃ s, Generic.Run (step puts (Cluster.trio.cfg 1)) (Regular puts)
      (.init (.fresh Storage.empty)) reconnectedPut s ∧
        s.consumer.delivered = [⟨0,1,0,[10,2,16,3]⟩,⟨2,2,0,[10,4,8,1,16,1]⟩] :=
    Generic.Run.of_check (by decide) (by decide)
  exact ⟨s,hs,hdelivered,end_to_end (RaftNode.create_empty Storage.empty) hs⟩

end Trio

end Link
end Foskv.Raft
