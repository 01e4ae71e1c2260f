import Foskv.Generic.Run
import Foskv.Rpc.Framing

/-! One `RpcConsumer`: the `call()`s that take its mutex, the reader coroutine and the callback
map they share, over any number of connections. -/
namespace Foskv.Rpc

open Generic.Frames

/-- The number of a `call()`, in the order in which they take the mutex; it names the callback
that was passed. -/
abbrev CallId := ℕ

/-- Where the coroutine `consume_callbacks` stands. -/
inductive Reader
  | off
  /-- It awaits the next response. -/
  | reading
  /-- It awaits a callback, whose entry is still in the map. -/
  | invoking (requestId : UInt64)
  /-- It has left the loop and `is_running_` is still set. -/
  | stopping
  deriving DecidableEq, Repr

/-- Who holds the mutex, and at which `co_await`. -/
inductive Holder
  | connecting (call : CallId)
  | writing (call : CallId) (requestId : UInt64)
  | returning (call : CallId)
  | shuttingDown
  deriving DecidableEq, Repr

/-- A request whose bytes have all been written on a connection. -/
structure Sent where
  call : CallId
  connection : ℕ
  requestId : UInt64
  deriving DecidableEq, Repr

/-- An invocation of the callback of a call. -/
structure Delivery where
  call : CallId
  connection : ℕ
  requestId : UInt64
  respPayload : Bytes
  deriving DecidableEq, Repr

structure RpcConsumer where
  /-- The inner `none` is a callback that has been moved out of its entry. -/
  callbacks : UInt64 → Option (Option CallId)
  requestId : UInt64
  streamValid : Bool
  reader : Reader
  isShutdown : Bool
  holder : Option Holder
  /-- How many connections have been made; the last one is the one `stream_` was opened on. -/
  connection : ℕ
  calls : ℕ
  /-- The ids written on the last connection whose responses have not been read from it. -/
  outstanding : List UInt64
  sent : List Sent
  delivered : List Delivery
  /-- The calls that returned an error. -/
  failed : List CallId

namespace RpcConsumer

/-- The object `create` builds, around an invalid socket. -/
def init : RpcConsumer where
  callbacks _ := none
  requestId := 0
  streamValid := false
  reader := .off
  isShutdown := false
  holder := none
  connection := 0
  calls := 0
  outstanding := []
  sent := []
  delivered := []
  failed := []

def isRunning (s : RpcConsumer) : Bool := s.reader ≠ .off

def erase (callbacks : UInt64 → Option (Option CallId)) (requestId : UInt64) :
    UInt64 → Option (Option CallId) := Function.update callbacks requestId none

/-- `callbacks_.emplace(request_id_++, callback)`: an entry that exists is not replaced. -/
def store (s : RpcConsumer) (call : CallId) : RpcConsumer :=
  { s with
    callbacks := match s.callbacks s.requestId with
      | none => Function.update s.callbacks s.requestId (some (some call))
      | some _ => s.callbacks
    requestId := s.requestId + 1
    holder := some (.writing call s.requestId) }

/-- `stream_` takes the new connection and its reader is spawned. -/
def run (s : RpcConsumer) : RpcConsumer :=
  { s with
    streamValid := true
    reader := .reading
    connection := s.connection + 1
    outstanding := [] }

inductive Label
  /-- A caller takes the mutex; `call` runs up to its first `co_await`. -/
  | call
  /-- The result of `TcpStream::connect`. -/
  | connected (ok : Bool)
  /-- The result of `write_vectored`; on an error the stream is closed. -/
  | written (ok : Bool)
  | returned
  /-- The reader's next header and payload, or where reading them fails. -/
  | received (result : Except (Stop FixedResponseHeader) ResponseFrame)
  | callbackReturned
  /-- `is_running_.store(false)`. -/
  | stopped
  | shutdown
  | shutdownReturned

/-- `connect()` comes back at once while the stream is valid or a reader still runs. -/
def step (s : RpcConsumer) : Label → Option RpcConsumer
  | .call =>
    if s.holder = none then
      let call := s.calls
      let s := { s with calls := s.calls + 1 }
      if s.streamValid ∨ s.isRunning then some (s.store call)
      else some { s with requestId := 0, holder := some (.connecting call) }
    else none
  | .connected ok =>
    match s.holder with
    | some (.connecting call) =>
      if ok then some (s.run.store call)
      else some { s with holder := none, failed := s.failed ++ [call] }
    | _ => none
  | .written ok =>
    match s.holder with
    | some (.writing call requestId) =>
      if ok then
        if s.streamValid then
          some { s with
            holder := some (.returning call)
            outstanding := s.outstanding ++ [requestId]
            sent := s.sent ++ [⟨call,s.connection,requestId⟩] }
        else none
      else some { s with streamValid := false, holder := none, failed := s.failed ++ [call] }
    | _ => none
  | .returned =>
    match s.holder with
    | some (.returning _) => some { s with holder := none }
    | _ => none
  | .received (.ok frame) =>
    if s.reader = .reading then
      let requestId := frame.1.requestId
      let s := { s with outstanding := s.outstanding.erase requestId }
      match s.callbacks requestId with
      | none => some s
      | some none => none
      | some (some call) => some { s with
          callbacks := Function.update s.callbacks requestId (some none)
          reader := .invoking requestId
          delivered := s.delivered ++ [⟨call,s.connection,requestId,frame.2⟩] }
    else none
  | .received (.error stop) =>
    if s.reader = .reading then
      match stop with
      | .header => some { s with reader := .stopping }
      | .tooLarge header | .payload header =>
        some { s with callbacks := erase s.callbacks header.requestId, reader := .stopping }
    else none
  | .callbackReturned =>
    match s.reader with
    | .invoking requestId =>
      some { s with callbacks := erase s.callbacks requestId, reader := .reading }
    | _ => none
  | .stopped => if s.reader = .stopping then some { s with reader := .off } else none
  | .shutdown =>
    if s.holder = none then
      if s.isShutdown then some s
      else some { s with
        isShutdown := true
        streamValid := false
        holder := some .shuttingDown }
    else none
  | .shutdownReturned =>
    if s.holder = some .shuttingDown ∧ ¬s.isRunning then some { s with holder := none } else none

/-- A run of one consumer all of whose steps meet a condition. -/
abbrev Run (ok : RpcConsumer → Label → Prop) : List Label → RpcConsumer → Prop :=
  Generic.Run step ok init

/-- Responses reach their callers: each is delivered to the callback of a call that sent its id
on its connection, no callback is invoked twice and none whose call returned an error. -/
def Paired (s : RpcConsumer) : Prop :=
  (∀ d ∈ s.delivered, ⟨d.call,d.connection,d.requestId⟩ ∈ s.sent) ∧
    (s.delivered.map Delivery.call).Nodup ∧ ∀ d ∈ s.delivered, d.call ∉ s.failed

/-- What each label does, with the guard under which it does it. -/
inductive Steps (s : RpcConsumer) : Label → RpcConsumer → Prop
  | stores (free : s.holder = none) (connected : s.streamValid ∨ s.isRunning) :
      Steps s .call ({ s with calls := s.calls + 1 }.store s.calls)
  | connects (free : s.holder = none) (closed : ¬(s.streamValid ∨ s.isRunning)) :
      Steps s .call { s with
        calls := s.calls + 1, requestId := 0, holder := some (.connecting s.calls) }
  | connected {call} (awaits : s.holder = some (.connecting call)) :
      Steps s (.connected true) (s.run.store call)
  | connectFailed {call} (awaits : s.holder = some (.connecting call)) :
      Steps s (.connected false) { s with holder := none, failed := s.failed ++ [call] }
  | written {call requestId} (awaits : s.holder = some (.writing call requestId)) :
      Steps s (.written true) { s with
        holder := some (.returning call)
        outstanding := s.outstanding ++ [requestId]
        sent := s.sent ++ [⟨call,s.connection,requestId⟩] }
  | writeFailed {call requestId} (awaits : s.holder = some (.writing call requestId)) :
      Steps s (.written false)
        { s with streamValid := false, holder := none, failed := s.failed ++ [call] }
  | returned : Steps s .returned { s with holder := none }
  | unknown {frame : ResponseFrame} (reading : s.reader = .reading)
      (absent : s.callbacks frame.1.requestId = none) :
      Steps s (.received (.ok frame))
        { s with outstanding := s.outstanding.erase frame.1.requestId }
  | invokes {frame : ResponseFrame} {call} (reading : s.reader = .reading)
      (found : s.callbacks frame.1.requestId = some (some call)) :
      Steps s (.received (.ok frame)) { s with
        outstanding := s.outstanding.erase frame.1.requestId
        callbacks := Function.update s.callbacks frame.1.requestId (some none)
        reader := .invoking frame.1.requestId
        delivered := s.delivered ++ [⟨call,s.connection,frame.1.requestId,frame.2⟩] }
  | breaks (reading : s.reader = .reading) :
      Steps s (.received (.error .header)) { s with reader := .stopping }
  | drops {stop} (requestId : UInt64) (reading : s.reader = .reading) :
      Steps s (.received (.error stop))
        { s with callbacks := erase s.callbacks requestId, reader := .stopping }
  | callbackReturned {requestId} (awaits : s.reader = .invoking requestId) :
      Steps s .callbackReturned
        { s with callbacks := erase s.callbacks requestId, reader := .reading }
  | stopped (stopping : s.reader = .stopping) : Steps s .stopped { s with reader := .off }
  | shutdownAgain : Steps s .shutdown s
  | shutdown : Steps s .shutdown
      { s with isShutdown := true, streamValid := false, holder := some .shuttingDown }
  | shutdownReturned : Steps s .shutdownReturned { s with holder := none }

section Inversion
variable {s s' : RpcConsumer}

theorem call_steps (h : s.step .call = some s') : Steps s .call s' := by
  simp only [step] at h
  split at h
  · rename_i free
    split at h
    · rename_i hopen
      cases h
      exact .stores free hopen
    · rename_i hclosed
      cases h
      exact .connects free hclosed
  · cases h

theorem connected_steps {ok : Bool} (h : s.step (.connected ok) = some s') :
    Steps s (.connected ok) s' := by
  simp only [step] at h
  split at h
  · rename_i awaits
    cases ok
    · cases h
      exact .connectFailed awaits
    · cases h
      exact .connected awaits
  · cases h

theorem written_steps {ok : Bool} (h : s.step (.written ok) = some s') :
    Steps s (.written ok) s' := by
  simp only [step] at h
  split at h
  · rename_i awaits
    cases ok
    · cases h
      exact .writeFailed awaits
    · simp only [if_true] at h
      split at h
      · cases h
        exact .written awaits
      · cases h
  · cases h

theorem received_steps {result : Except (Stop FixedResponseHeader) ResponseFrame}
    (h : s.step (.received result) = some s') : Steps s (.received result) s' := by
  cases result with
  | ok frame =>
    simp only [step] at h
    split at h
    · rename_i reading
      split at h
      · rename_i absent
        cases h
        exact .unknown reading absent
      · cases h
      · rename_i found
        cases h
        exact .invokes reading found
    · cases h
  | error stop =>
    simp only [step] at h
    split at h
    · rename_i reading
      cases stop <;> cases h
      · exact .breaks reading
      · exact .drops _ reading
      · exact .drops _ reading
    · cases h

theorem shutdown_steps (h : s.step .shutdown = some s') : Steps s .shutdown s' := by
  simp only [step] at h
  split at h
  · split at h <;> cases h
    · exact .shutdownAgain
    · exact .shutdown
  · cases h

/-- Every defined step is one of these. -/
theorem steps_of_step {l : Label} (h : s.step l = some s') : Steps s l s' := by
  cases l with
  | call => exact call_steps h
  | connected ok => exact connected_steps h
  | written ok => exact written_steps h
  | received result => exact received_steps h
  | shutdown => exact shutdown_steps h
  | returned =>
    simp only [step] at h
    split at h
    · cases h
      exact .returned
    · cases h
  | callbackReturned =>
    simp only [step] at h
    split at h
    · rename_i awaits
      cases h
      exact .callbackReturned awaits
    · cases h
  | stopped =>
    simp only [step] at h
    split at h
    · rename_i stopping
      cases h
      exact .stopped stopping
    · cases h
  | shutdownReturned =>
    simp only [step] at h
    split at h
    · cases h
      exact .shutdownReturned
    · cases h

end Inversion

@[simp] theorem erase_apply (callbacks : UInt64 → Option (Option CallId)) (r r' : UInt64) :
    erase callbacks r r' = if r' = r then none else callbacks r' := by
  simp [erase, Function.update_apply]

theorem store_callbacks (s : RpcConsumer) (call : CallId) (r : UInt64) :
    (s.store call).callbacks r =
      if r = s.requestId ∧ s.callbacks s.requestId = none then some (some call)
      else s.callbacks r := by
  cases h : s.callbacks s.requestId <;> simp [store, h, Function.update_apply]

/-- What is known of the calls in every run: a stored callback has not been invoked, each is
stored under one id, and only the one being awaited is moved out of its entry. -/
structure Tracked (s : RpcConsumer) : Prop where
  stored : ∀ r k, s.callbacks r = some (some k) → k < s.calls ∧ ∀ d ∈ s.delivered, d.call ≠ k
  distinct : ∀ r r' k, s.callbacks r = some (some k) → s.callbacks r' = some (some k) → r = r'
  moved : ∀ r, s.callbacks r = some none → s.reader = .invoking r
  invoked : ∀ d ∈ s.delivered, d.call < s.calls
  once : (s.delivered.map Delivery.call).Nodup
  sent : ∀ x ∈ s.sent, x.call < s.calls ∧ x.call ∉ s.failed
  failed : ∀ k ∈ s.failed, k < s.calls

/-- A call that has only got its number. -/
structure Fresh (s : RpcConsumer) (k : CallId) : Prop where
  lt : k < s.calls
  stored : ∀ r, s.callbacks r ≠ some (some k)
  delivered : ∀ d ∈ s.delivered, d.call ≠ k
  sent : ∀ x ∈ s.sent, x.call ≠ k
  failed : k ∉ s.failed

/-- The call that holds the mutex has got no further than its place says. -/
structure Held (s : RpcConsumer) : Prop where
  connecting : ∀ k, s.holder = some (.connecting k) → Fresh s k ∧ s.reader = .off
  writing : ∀ k r, s.holder = some (.writing k r) →
    k < s.calls ∧ (∀ x ∈ s.sent, x.call ≠ k) ∧ k ∉ s.failed

theorem Held.of_holder {s : RpcConsumer} (hc : ∀ k, s.holder ≠ some (.connecting k))
    (hw : ∀ k r, s.holder ≠ some (.writing k r)) : Held s :=
  ⟨fun k h => absurd h (hc k),fun k r h => absurd h (hw k r)⟩

/-- Nobody connects while a reader runs. -/
theorem Held.running {s s' : RpcConsumer} (h : Held s) (hreader : s.reader ≠ .off)
    (hholder : s'.holder = s.holder) (hcalls : s'.calls = s.calls) (hsent : s'.sent = s.sent)
    (hfailed : s'.failed = s.failed) : Held s' where
  connecting k hk := absurd (h.connecting k (hholder ▸ hk)).2 hreader
  writing k r hk := by
    rw [hcalls, hsent, hfailed]
    exact h.writing k r (hholder ▸ hk)

/-- The next call begins. -/
theorem Tracked.next {s : RpcConsumer} (h : Tracked s) :
    Tracked { s with calls := s.calls + 1 } ∧ Fresh { s with calls := s.calls + 1 } s.calls := by
  constructor
  · exact { h with
      stored := fun r k hk => ⟨Nat.lt_succ_of_lt (h.stored r k hk).1,(h.stored r k hk).2⟩
      invoked := fun d hd => Nat.lt_succ_of_lt (h.invoked d hd)
      sent := fun x hx => ⟨Nat.lt_succ_of_lt (h.sent x hx).1,(h.sent x hx).2⟩
      failed := fun k hk => Nat.lt_succ_of_lt (h.failed k hk) }
  · exact {
      lt := Nat.lt_succ_self _
      stored := fun r hr => Nat.lt_irrefl _ (h.stored r _ hr).1
      delivered := fun d hd => Nat.ne_of_lt (h.invoked d hd)
      sent := fun x hx => Nat.ne_of_lt (h.sent x hx).1
      failed := fun hk => Nat.lt_irrefl _ (h.failed _ hk) }

theorem Tracked.store {s : RpcConsumer} (h : Tracked s) {k : CallId} (hk : Fresh s k) :
    Tracked (s.store k) ∧ Held (s.store k) := by
  constructor
  · refine { h with stored := ?_, distinct := ?_, moved := ?_ }
    · intro r j hj
      rw [store_callbacks] at hj
      split at hj
      · cases hj
        exact ⟨hk.lt,hk.delivered⟩
      · exact h.stored r j hj
    · intro r r' j hr hr'
      rw [store_callbacks] at hr hr'
      split_ifs at hr hr' with h1 h2 h2
      · exact h1.1.trans h2.1.symm
      · cases hr
        exact absurd hr' (hk.stored r')
      · cases hr'
        exact absurd hr (hk.stored r)
      · exact h.distinct r r' j hr hr'
    · intro r hr
      rw [store_callbacks] at hr
      split at hr
      · cases hr
      · exact h.moved r hr
  · constructor
    · intro j hj
      cases hj
    · intro j r hj
      cases hj
      exact ⟨hk.lt,hk.sent,hk.failed⟩

/-- An entry is erased, and with it no other callback moves. -/
theorem Tracked.erase {s : RpcConsumer} (h : Tracked s) (requestId : UInt64) (reader : Reader)
    (hreader : ∀ r, r ≠ requestId → s.reader ≠ .invoking r) :
    Tracked { s with callbacks := RpcConsumer.erase s.callbacks requestId, reader := reader } := by
  refine { h with stored := ?_, distinct := ?_, moved := ?_ }
  · intro r k hr
    simp only [erase_apply] at hr
    split_ifs at hr
    exact h.stored r k hr
  · intro r r' k hr hr'
    simp only [erase_apply] at hr hr'
    split_ifs at hr hr'
    exact h.distinct r r' k hr hr'
  · intro r hr
    simp only [erase_apply] at hr
    split_ifs at hr with hne
    exact absurd (h.moved r hr) (hreader r hne)

/-- The call that holds the mutex returns an error. -/
theorem Tracked.fail {s : RpcConsumer} (h : Tracked s) {k : CallId} (hlt : k < s.calls)
    (hsent : ∀ x ∈ s.sent, x.call ≠ k) : Tracked { s with failed := s.failed ++ [k] } := by
  refine { h with sent := fun x hx => ⟨(h.sent x hx).1,?_⟩, failed := fun j hj => ?_ }
  · have := (h.sent x hx).2
    have := hsent x hx
    simp_all
  · obtain hj | hj := List.mem_append.mp hj
    · exact h.failed j hj
    · obtain rfl := List.mem_singleton.mp hj
      exact hlt

/-- The callback of a stored call is moved out of its entry and invoked. -/
theorem Tracked.invoke {s : RpcConsumer} (h : Tracked s) (reading : s.reader = .reading)
    {requestId : UInt64} {call : CallId} (found : s.callbacks requestId = some (some call))
    (outstanding : List UInt64) (d : Delivery) (hd : d.call = call) :
    Tracked { s with
      outstanding := outstanding
      callbacks := Function.update s.callbacks requestId (some none)
      reader := .invoking requestId
      delivered := s.delivered ++ [d] } := by
  subst hd
  obtain ⟨hlt,hnew⟩ := h.stored _ _ found
  refine { h with stored := ?_, distinct := ?_, moved := ?_, invoked := ?_, once := ?_ }
  · intro r k hr
    simp only [Function.update_apply] at hr
    split_ifs at hr with hne
    · cases hr
    refine ⟨(h.stored r k hr).1,fun e he => ?_⟩
    obtain he | he := List.mem_append.mp he
    · exact (h.stored r k hr).2 e he
    · obtain rfl := List.mem_singleton.mp he
      rintro rfl
      exact hne (h.distinct _ _ _ hr found)
  · intro r r' k hr hr'
    simp only [Function.update_apply] at hr hr'
    split_ifs at hr hr'
    · cases hr
    · cases hr
    · cases hr'
    · exact h.distinct r r' k hr hr'
  · intro r hr
    simp only [Function.update_apply] at hr
    split_ifs at hr with heq
    · rw [heq]
    · exact nomatch reading.symm.trans (h.moved r hr)
  · intro e he
    obtain he | he := List.mem_append.mp he
    · exact h.invoked e he
    · obtain rfl := List.mem_singleton.mp he
      exact hlt
  · rw [List.map_append, List.nodup_append]
    exact ⟨h.once,by simp,by simpa using hnew⟩

theorem step_tracked {s s' : RpcConsumer} {l : Label} (ht : Tracked s) (hh : Held s)
    (h : s.step l = some s') : Tracked s' ∧ Held s' := by
  cases steps_of_step h with
  | stores free connected => exact ht.next.1.store ht.next.2
  | connects free closed =>
    have hoff : s.reader = .off := by simpa [isRunning] using (not_or.mp closed).2
    refine ⟨{ ht.next.1 with },⟨fun k hk => ?_,fun k r hk => nomatch hk⟩⟩
    cases hk
    exact ⟨{ ht.next.2 with },hoff⟩
  | @connected call awaits =>
    obtain ⟨hfresh,hoff⟩ := hh.connecting call awaits
    have hrun : Tracked s.run := { ht with
      moved := fun r hr => nomatch hoff.symm.trans (ht.moved r hr) }
    exact hrun.store { hfresh with }
  | @connectFailed call awaits =>
    obtain ⟨hfresh,-⟩ := hh.connecting call awaits
    exact ⟨{ ht.fail hfresh.lt hfresh.sent with },.of_holder nofun nofun⟩
  | @written call requestId awaits =>
    obtain ⟨hlt,hsent,hfailed⟩ := hh.writing call requestId awaits
    refine ⟨{ ht with sent := fun x hx => ?_ },.of_holder nofun nofun⟩
    obtain hx | hx := List.mem_append.mp hx
    · exact ht.sent x hx
    · obtain rfl := List.mem_singleton.mp hx
      exact ⟨hlt,hfailed⟩
  | @writeFailed call requestId awaits =>
    obtain ⟨hlt,hsent,-⟩ := hh.writing call requestId awaits
    exact ⟨{ ht.fail hlt hsent with },.of_holder nofun nofun⟩
  | returned => exact ⟨{ ht with },.of_holder nofun nofun⟩
  | @unknown frame reading absent =>
    exact ⟨{ ht with },hh.running (by simp [reading]) rfl rfl rfl rfl⟩
  | @invokes frame call reading found =>
    exact ⟨ht.invoke reading found _ _ rfl,hh.running (by simp [reading]) rfl rfl rfl rfl⟩
  | breaks reading =>
    exact ⟨{ ht with moved := fun r hr => nomatch reading.symm.trans (ht.moved r hr) },
      hh.running (by simp [reading]) rfl rfl rfl rfl⟩
  | @drops stop requestId reading =>
    exact ⟨ht.erase requestId .stopping fun r _ hr => (nomatch reading.symm.trans hr),
      hh.running (by simp [reading]) rfl rfl rfl rfl⟩
  | @callbackReturned requestId awaits =>
    refine ⟨ht.erase requestId .reading fun r hne hr => ?_,
      hh.running (by simp [awaits]) rfl rfl rfl rfl⟩
    exact hne (Reader.invoking.inj (hr.symm.trans awaits))
  | stopped stopping =>
    exact ⟨{ ht with moved := fun r hr => nomatch stopping.symm.trans (ht.moved r hr) },
      hh.running (by simp [stopping]) rfl rfl rfl rfl⟩
  | shutdownAgain => exact ⟨ht,hh⟩
  | shutdown => exact ⟨{ ht with },.of_holder nofun nofun⟩
  | shutdownReturned => exact ⟨{ ht with },.of_holder nofun nofun⟩

theorem Run.tracked {ok : RpcConsumer → Label → Prop} {ls : List Label} {s : RpcConsumer}
    (h : Run ok ls s) : Tracked s ∧ Held s := by
  refine Generic.Run.invariant (P := fun s => Tracked s ∧ Held s) ?_ ?_ h
  · refine ⟨?_,.of_holder nofun nofun⟩
    constructor <;> simp [init]
  · intro ls s l s' _ hs _ hn
    exact step_tracked hs.1 hs.2 hn

/-- In every run, whatever arrives, no callback is invoked twice. -/
theorem callbacks_invoked_once {ls : List Label} {s : RpcConsumer}
    (h : Run (fun _ _ => True) ls s) : (s.delivered.map Delivery.call).Nodup := h.tracked.1.once

/-- `call()` stores its callback under an id that has no entry, and a response answers a request
that is outstanding on its connection, unless its id has no entry either. -/
def Answered (s : RpcConsumer) : Label → Prop
  | .call => s.streamValid ∨ s.isRunning → s.callbacks s.requestId = none
  | .connected ok => ok → s.callbacks s.requestId = none
  | .received (.ok frame) =>
    s.callbacks frame.1.requestId = none ∨ frame.1.requestId ∈ s.outstanding
  | _ => True

instance (s : RpcConsumer) (l : Label) : Decidable (s.Answered l) :=
  match l with
  | .call => inferInstanceAs
      (Decidable (s.streamValid ∨ s.isRunning → s.callbacks s.requestId = none))
  | .connected ok => inferInstanceAs (Decidable (ok → s.callbacks s.requestId = none))
  | .received (.ok frame) => inferInstanceAs
      (Decidable (s.callbacks frame.1.requestId = none ∨ frame.1.requestId ∈ s.outstanding))
  | .received (.error _) => .isTrue trivial
  | .written _ => .isTrue trivial
  | .returned => .isTrue trivial
  | .callbackReturned => .isTrue trivial
  | .stopped => .isTrue trivial
  | .shutdown => .isTrue trivial
  | .shutdownReturned => .isTrue trivial

/-- The reader may still take a response from the last connection. -/
def Awake (s : RpcConsumer) : Prop := s.reader ≠ .off ∧ s.reader ≠ .stopping

/-- What is outstanding on the last connection is stored for the call that sent it. -/
structure Matched (s : RpcConsumer) : Prop where
  outstanding : s.Awake → ∀ r ∈ s.outstanding,
    ∃ k, s.callbacks r = some (some k) ∧ ⟨k,s.connection,r⟩ ∈ s.sent
  nodup : s.Awake → s.outstanding.Nodup
  writing : s.Awake → ∀ k r, s.holder = some (.writing k r) → s.callbacks r = some (some k)
  invoking : ∀ r, s.reader = .invoking r → s.callbacks r = some none
  delivered : ∀ d ∈ s.delivered, ⟨d.call,d.connection,d.requestId⟩ ∈ s.sent

theorem Matched.store {s : RpcConsumer} (h : Matched s) (k : CallId)
    (hnone : s.callbacks s.requestId = none) : Matched (s.store k) := by
  have hkeep : ∀ r, s.callbacks r ≠ none → (s.store k).callbacks r = s.callbacks r := by
    intro r hr
    rw [store_callbacks, if_neg]
    rintro ⟨rfl,-⟩
    exact hr hnone
  refine { h with outstanding := ?_, writing := ?_, invoking := ?_ }
  · intro hawake r hr
    obtain ⟨j,hj,hsent⟩ := h.outstanding hawake r hr
    exact ⟨j,by rw [hkeep r (by simp [hj]), hj],hsent⟩
  · intro _ j r hj
    obtain ⟨rfl,rfl⟩ : k = j ∧ s.requestId = r := by simpa [RpcConsumer.store] using hj
    rw [store_callbacks, if_pos ⟨rfl,hnone⟩]
  · intro r hr
    have hmoved := h.invoking r hr
    rw [hkeep r (by simp [hmoved]), hmoved]

/-- Once the reader has stopped, only the deliveries made so far matter. -/
theorem Matched.of_not_awake {s : RpcConsumer} (hawake : ¬s.Awake)
    (hdelivered : ∀ d ∈ s.delivered, ⟨d.call,d.connection,d.requestId⟩ ∈ s.sent) : Matched s where
  outstanding ha := absurd ha hawake
  nodup ha := absurd ha hawake
  writing ha := absurd ha hawake
  invoking r hr := absurd ⟨by simp [hr],by simp [hr]⟩ hawake
  delivered := hdelivered

/-- A request is written, and its response is awaited from now on. -/
theorem Matched.written {s : RpcConsumer} (h : Matched s) {call : CallId} {requestId : UInt64}
    (awaits : s.holder = some (.writing call requestId)) (hnew : ∀ x ∈ s.sent, x.call ≠ call) :
    Matched { s with
      holder := some (.returning call)
      outstanding := s.outstanding ++ [requestId]
      sent := s.sent ++ [⟨call,s.connection,requestId⟩] } where
  outstanding ha r hr := by
    obtain hr | hr := List.mem_append.mp hr
    · obtain ⟨k,hk,hsent⟩ := h.outstanding ha r hr
      exact ⟨k,hk,List.mem_append_left _ hsent⟩
    · obtain rfl := List.mem_singleton.mp hr
      exact ⟨call,h.writing ha call r awaits,List.mem_append_right _ (List.mem_singleton_self _)⟩
  nodup ha := by
    have hfree : requestId ∉ s.outstanding := by
      -- the entry of an outstanding id is of a call that has sent it, `call` has not
      intro hr
      obtain ⟨k,hk,hsent⟩ := h.outstanding ha requestId hr
      have hcall := h.writing ha call requestId awaits
      obtain rfl : k = call := by simpa [hk] using hcall
      exact hnew _ hsent rfl
    rw [List.nodup_append]
    refine ⟨h.nodup ha,by simp,fun a hr b hb => ?_⟩
    obtain rfl := List.mem_singleton.mp hb
    exact fun hab => hfree (hab ▸ hr)
  writing _ _ _ hk := nomatch hk
  invoking := h.invoking
  delivered d hd := List.mem_append_left _ (h.delivered d hd)

/-- The response to an outstanding request is handed to its callback. -/
theorem Matched.invoke {s : RpcConsumer} (h : Matched s) (hh : Held s)
    (reading : s.reader = .reading) {requestId : UInt64} (hout : requestId ∈ s.outstanding)
    {call : CallId} (found : s.callbacks requestId = some (some call)) (respPayload : Bytes) :
    Matched { s with
      outstanding := s.outstanding.erase requestId
      callbacks := Function.update s.callbacks requestId (some none)
      reader := .invoking requestId
      delivered := s.delivered ++ [⟨call,s.connection,requestId,respPayload⟩] } := by
  have ha : s.Awake := ⟨by simp [reading],by simp [reading]⟩
  obtain ⟨k,hk,hsent⟩ := h.outstanding ha _ hout
  obtain rfl : call = k := by simpa [found] using hk
  refine { outstanding := ?_, nodup := ?_, writing := ?_, invoking := ?_, delivered := ?_ }
  · intro _ r hr
    obtain ⟨hne,hr⟩ := ((h.nodup ha).mem_erase_iff).mp hr
    obtain ⟨j,hj,hs⟩ := h.outstanding ha r hr
    exact ⟨j,by rw [← hj]; exact Function.update_of_ne hne _ _,hs⟩
  · exact fun _ => (h.nodup ha).erase _
  · intro _ j r hj
    have hr := h.writing ha j r hj
    have hne : r ≠ requestId := by
      rintro rfl
      obtain rfl : call = j := by simpa [found] using hr
      exact (hh.writing _ _ hj).2.1 _ hsent rfl
    rw [← hr]
    exact Function.update_of_ne hne _ _
  · intro r hr
    cases hr
    exact Function.update_self _ _ _
  · intro d hd
    obtain hd | hd := List.mem_append.mp hd
    · exact h.delivered d hd
    · obtain rfl := List.mem_singleton.mp hd
      exact hsent

/-- The callback comes back and its empty entry is erased. -/
theorem Matched.callbackReturned {s : RpcConsumer} (h : Matched s) {requestId : UInt64}
    (awaits : s.reader = .invoking requestId) : Matched { s with
      callbacks := RpcConsumer.erase s.callbacks requestId
      reader := .reading } := by
  have ha : s.Awake := ⟨by simp [awaits],by simp [awaits]⟩
  have hmoved := h.invoking requestId awaits
  have hkeep : ∀ r k, s.callbacks r = some (some k) →
      RpcConsumer.erase s.callbacks requestId r = some (some k) := by
    intro r k hr
    have hne : r ≠ requestId := by
      rintro rfl
      rw [hmoved] at hr
      cases hr
    rw [erase_apply, if_neg hne, hr]
  refine { h with outstanding := ?_, nodup := ?_, writing := ?_, invoking := ?_ }
  · intro _ r hr
    obtain ⟨k,hk,hsent⟩ := h.outstanding ha r hr
    exact ⟨k,hkeep r k hk,hsent⟩
  · exact fun _ => h.nodup ha
  · exact fun _ k r hk => hkeep r k (h.writing ha k r hk)
  · exact fun r hr => nomatch hr

theorem step_matched {s s' : RpcConsumer} {l : Label} (hh : Held s)
    (hm : Matched s) (hok : s.Answered l) (h : s.step l = some s') : Matched s' := by
  cases steps_of_step h with
  | stores free connected =>
    have hnext : Matched { s with calls := s.calls + 1 } := { hm with }
    exact hnext.store s.calls (hok connected)
  | connects free closed =>
    have hoff : s.reader = .off := by simpa [isRunning] using (not_or.mp closed).2
    exact .of_not_awake (fun ha => ha.1 hoff) hm.delivered
  | @connected call awaits =>
    have hrun : Matched s.run := {
      outstanding := fun _ r hr => by simp [run] at hr
      nodup := fun _ => List.nodup_nil
      writing := fun _ k r hk => by simp [run, awaits] at hk
      invoking := fun r hr => by simp [run] at hr
      delivered := hm.delivered }
    exact hrun.store call (hok rfl)
  | @connectFailed call awaits => exact { hm with writing := fun _ _ _ hk => nomatch hk }
  | @written call requestId awaits =>
    exact { hm.written awaits (hh.writing call requestId awaits).2.1 with }
  | @writeFailed call requestId awaits => exact { hm with writing := fun _ _ _ hk => nomatch hk }
  | returned => exact { hm with writing := fun _ _ _ hk => nomatch hk }
  | @unknown frame reading absent =>
    exact { hm with
      outstanding := fun ha r hr => hm.outstanding ha r (List.mem_of_mem_erase hr)
      nodup := fun ha => (hm.nodup ha).erase _ }
  | @invokes frame call reading found =>
    exact hm.invoke hh reading (hok.resolve_left (by simp [found])) found frame.2
  | breaks reading => exact .of_not_awake (fun ha => ha.2 rfl) hm.delivered
  | @drops stop requestId reading => exact .of_not_awake (fun ha => ha.2 rfl) hm.delivered
  | @callbackReturned requestId awaits =>
    exact hm.callbackReturned awaits
  | stopped stopping => exact .of_not_awake (fun ha => ha.1 rfl) hm.delivered
  | shutdownAgain => exact hm
  | shutdown => exact { hm with writing := fun _ _ _ hk => nomatch hk }
  | shutdownReturned => exact { hm with writing := fun _ _ _ hk => nomatch hk }

/-- No request is written under an id that is outstanding. -/
theorem written_new {s s' : RpcConsumer} (hh : Held s) (hm : Matched s) {call : CallId}
    {requestId : UInt64} (hholder : s.holder = some (.writing call requestId))
    (h : s.step (.written true) = some s') (ha : s.Awake) : requestId ∉ s.outstanding := by
  have hmatched := step_matched hh hm (show s.Answered (.written true) from trivial) h
  cases steps_of_step h with
  | @written call' requestId' awaits =>
    obtain ⟨rfl,rfl⟩ : call = call' ∧ requestId = requestId' := by simpa [hholder] using awaits
    intro hout
    exact (List.nodup_append.mp (hmatched.nodup ha)).2.2 requestId hout requestId
      (List.mem_singleton_self _) rfl

theorem Run.matched {ls : List Label} {s : RpcConsumer} (h : Run Answered ls s) : Matched s := by
  refine Generic.Run.invariant ?_ ?_ h
  · exact .of_not_awake (fun ha => ha.1 rfl) nofun
  · intro ls s l s' hs hm hok hn
    exact step_matched (Run.tracked hs).2 hm hok hn

/-- As long as callbacks are stored under free ids and responses answer outstanding requests,
every response reaches its own caller. -/
theorem responses_reach_callers {ls : List Label} {s : RpcConsumer} (h : Run Answered ls s) :
    s.Paired := by
  refine ⟨h.matched.delivered,h.tracked.1.once,fun d hd => ?_⟩
  exact (h.tracked.1.sent _ (h.matched.delivered d hd)).2

/-- Two calls answered out of order, a call that fails on the broken connection, and a call
answered on the next one. -/
def reconnected : List Label :=
  [.call,.connected true,.written true,.returned,.call,.written true,.returned,
    .received (.ok (⟨1,1⟩,[7])),.callbackReturned,.received (.ok (⟨0,1⟩,[8])),.callbackReturned,
    .received (.error .header),.stopped,.call,.written false,.call,.connected true,
    .written true,.returned,.received (.ok (⟨0,1⟩,[9]))]

theorem responses_reach_callers_reconnected : ∃ s, Run Answered reconnected s ∧
    s.delivered = [⟨1,1,1,[7]⟩,⟨0,1,0,[8]⟩,⟨3,2,0,[9]⟩] ∧ s.Paired := by
  have hrun : ∃ s, Run Answered reconnected s ∧
      s.delivered = [⟨1,1,1,[7]⟩,⟨0,1,0,[8]⟩,⟨3,2,0,[9]⟩] :=
    Generic.Run.of_check (by decide) (by decide)
  obtain ⟨s,hs,hdelivered⟩ := hrun
  exact ⟨s,hs,hdelivered,responses_reach_callers hs⟩

/-- Call 0 is never answered and call 1 fails. After the reconnect `emplace` keeps the callbacks
of both, and they get the responses to calls 2 and 3. -/
def crossed : List Label :=
  [.call,.connected true,.written true,.returned,.received (.error .header),.stopped,
    .call,.written false,.call,.connected true,.written true,.returned,
    .received (.ok (⟨0,1⟩,[7])),.callbackReturned,.call,.written true,.returned,
    .received (.ok (⟨1,1⟩,[8]))]

theorem responses_reach_earlier_callers : ∃ s, Run (fun _ _ => True) crossed s ∧
    s.sent = [⟨0,1,0⟩,⟨2,2,0⟩,⟨3,2,1⟩] ∧ s.failed = [1] ∧
    s.delivered = [⟨0,2,0,[7]⟩,⟨1,2,1,[8]⟩] ∧ ¬s.Paired := by
  have hrun : ∃ s, Run (fun _ _ => True) crossed s ∧ s.sent = [⟨0,1,0⟩,⟨2,2,0⟩,⟨3,2,1⟩] ∧
      s.failed = [1] ∧ s.delivered = [⟨0,2,0,[7]⟩,⟨1,2,1,[8]⟩] :=
    Generic.Run.of_check (by decide) (by decide)
  obtain ⟨s,hs,hsent,hfailed,hdelivered⟩ := hrun
  refine ⟨s,hs,hsent,hfailed,hdelivered,?_⟩
  rintro ⟨hpaired,-⟩
  rw [hsent, hdelivered] at hpaired
  exact absurd (hpaired ⟨0,2,0,[7]⟩ (by decide)) (by decide)

end RpcConsumer
end Foskv.Rpc
