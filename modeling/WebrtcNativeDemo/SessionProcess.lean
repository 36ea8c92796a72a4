import WebrtcNativeDemo.JanusSession
import WebrtcNativeDemo.TransportSteps

/-!
# The session on its two threads

A session together with its transport, its io thread and the thread of its owner.
The io thread calls `ioc_.run()` once: it runs one handler at a time and returns
when it finds nothing outstanding, or after `ioc_.stop()`. The owner calls `Init`
and `Destory` and at last the destructor, each in the steps between which the io
thread may run. A step of the owner does not fall inside a handler: one that is taken
while a handler is being run comes before it, when its operation or its wait is still
queued. An exception that leaves a handler leaves `run()` and the thread.
-/

namespace WebrtcNativeDemo

open WebsocketTransport (Call)

namespace SessionProcess

inductive IoThread
  | created
  | running
  /-- A handler has run, and its operation is not yet counted as finished. -/
  | handling
  | returned
  | terminated (fault : Fault)
deriving DecidableEq, Repr

inductive Owner
  | idle
  /-- In `Connect`, past its guard. -/
  | connecting
  /-- In `Destory`, behind `keep_alive_timer_->cancel()`. -/
  | cancelled
  /-- In `Disconnect`, past its guard. -/
  | disconnecting
deriving DecidableEq, Repr

end SessionProcess

open SessionProcess in
structure SessionProcess where
  session : JanusSession := {}
  ws : WebsocketTransport
  io : IoThread := .created
  owner : Owner := .idle
  -- the destructor has been entered, `ioc_.stop()` has been called
  destroying : Bool := false
  stopped : Bool := false

namespace SessionProcess

variable {F : Type} (lib : Nlohmann F)

def create (host : String) (port : Int16) : SessionProcess :=
  { ws :=
      ((WebsocketTransport.create host port "janus-protocol").setConnectCallback).setMsgCallback }

/-- The operations, closures and waits that are outstanding on `ioc_`. -/
def outstanding (p : SessionProcess) : ℕ :=
  p.ws.resolves + p.ws.connects + p.ws.handshakes + p.ws.reads.length + p.ws.writes.length +
    p.ws.closes.length + p.ws.posted.length + p.session.keepAliveTimer.waits

/-! ### The owner's thread -/

/-- `Init()` up to the guard of `Connect`. -/
def init (p : SessionProcess) : SessionProcess :=
  if p.ws.connected then p
  else { p with ws.entered := p.ws.entered ++ [.connect], owner := .connecting }

/-- `Destory()` up to the call of `Disconnect`. -/
def destory (p : SessionProcess) : SessionProcess :=
  { p with session.keepAliveTimer := p.session.keepAliveTimer.cancel, owner := .cancelled }

/-- The guard of `Disconnect`. -/
def disconnect (p : SessionProcess) : SessionProcess :=
  if p.ws.isOpen then
    { p with ws.entered := p.ws.entered ++ [.disconnect], owner := .disconnecting }
  else { p with owner := .idle }

/-- The rest of `Connect` or `Disconnect`. -/
def leave (p : SessionProcess) : Option SessionProcess :=
  (p.ws.step (.leave 0)).map fun ws => { p with ws, owner := .idle }

/-! ### The io thread -/

def poll (p : SessionProcess) : SessionProcess :=
  { p with io := if p.stopped || p.outstanding == 0 then .returned else .running }

def onHandshake (p : SessionProcess) (tsd : String) (ec : ErrorCode) : SessionProcess :=
  match ec with
  | some ec => { p with ws := (p.ws.handshakeCompletes (some ec)).onHandshake [] (some ec) }
  | none =>
    let (session, cs) := p.session.onConnect lib tsd
    { p with session, ws := (p.ws.handshakeCompletes none).onHandshake cs none }

/-- `OnRead` with `OnMsg` as its callback. Where the callback throws, the buffer is
not consumed and no read is started. -/
def onRead (p : SessionProcess) (i : ℕ) (r : WebsocketTransport.Read) (ec : ErrorCode) :
    SessionProcess :=
  match ec with
  | some ec => { p with ws := (p.ws.readCompletes i r (some ec)).onRead [] (some ec) }
  | none =>
    let ws := p.ws.readCompletes i r none
    let (session, result) := p.session.onMsg lib ws.buffer
    match result with
    | .ok () => { p with session, ws := ws.onRead [] none }
    | .error fault =>
      { p with session, ws := ws.output (.msgCallback ws.buffer), io := .terminated fault }

def onWait (p : SessionProcess) (timer : SteadyTimer) (tsd : String) (ec : ErrorCode) :
    SessionProcess :=
  let (session, cs) := { p.session with keepAliveTimer := timer }.onWait lib tsd ec
  { p with session, ws := p.ws.calls cs }

def handled (p : SessionProcess) : SessionProcess :=
  { p with io := if p.io = .running then .handling else p.io }

/-! ### Steps -/

/-- The completions and closures in which the session has no callback. -/
inductive Completion
  | resolved (ec : ErrorCode)
  | tcpConnected (ec : ErrorCode)
  | frame (i : ℕ) (bytes : Bytes)
  | writeDone (i : ℕ) (ec : ErrorCode)
  | closeDone (i : ℕ) (ec : ErrorCode)
  | runPosted
  | notOpen

def Completion.event : Completion → WebsocketTransport.Event
  | .resolved ec => .resolved ec
  | .tcpConnected ec => .tcpConnected ec
  | .frame i bytes => .frame i bytes
  | .writeDone i ec => .writeDone i ec
  | .closeDone i ec => .closeDone i ec
  | .runPosted => .runPosted
  | .notOpen => .notOpen

inductive Event
  | init
  | destory
  | destroy
  | disconnect
  | leave
  | stop
  | poll
  | expire
  | completion (c : Completion)
  | handshaken (ec : ErrorCode) (tsd : String)
  | readDone (i : ℕ) (ec : ErrorCode)
  | waitDone (ec : ErrorCode) (tsd : String)

/-- The handlers, as far as `run()` gets to them. -/
def handler (p : SessionProcess) : Event → Option SessionProcess
  | .completion c => (p.ws.step c.event).map fun ws => { p with ws }
  | .handshaken ec tsd => if p.ws.handshakes = 0 then none else some (p.onHandshake lib tsd ec)
  | .readDone i ec => p.ws.reads[i]?.map fun r => p.onRead lib i r ec
  | .waitDone ec tsd =>
    (p.session.keepAliveTimer.take ec.isSome).map fun timer => p.onWait lib timer tsd ec
  | _ => none

def step (p : SessionProcess) : Event → Option SessionProcess
  | .init => if p.owner = .idle ∧ p.destroying = false then some p.init else none
  | .destory => if p.owner = .idle ∧ p.destroying = false then some p.destory else none
  | .destroy =>
    if p.owner = .idle ∧ p.destroying = false then some { p.destory with destroying := true }
    else none
  | .disconnect => if p.owner = .cancelled then some p.disconnect else none
  | .leave => if p.owner = .connecting ∨ p.owner = .disconnecting then p.leave else none
  | .stop =>
    if p.owner = .idle ∧ p.destroying = true then some { p with stopped := true } else none
  | .poll =>
    if p.io = .created ∨ p.io = .handling ∨ (p.io = .running ∧ p.stopped = true) then some p.poll
    else none
  | .expire => some { p with session.keepAliveTimer := p.session.keepAliveTimer.expire }
  | e =>
    if p.io = .running ∧ p.stopped = false then (p.handler lib e).map handled else none

def Fresh (p : SessionProcess) : Prop := ∃ host port, p = create host port

def system : EventSystem SessionProcess Event := ⟨Fresh, step lib⟩

/-- `Init()` before the io thread starts, and the three completions up to `OnConnect`. -/
def opening (tsd : String) : List Event :=
  [.init, .leave, .poll, .completion (.resolved none), .poll, .completion (.tcpConnected none),
    .poll, .handshaken none tsd, .poll]

/-! ### Inversion of the steps -/

section Inversion

variable {lib} {p p' : SessionProcess}

inductive Moves (lib : Nlohmann F) (p : SessionProcess) : Event → SessionProcess → Prop
  | init : Moves lib p .init p.init
  | destory : Moves lib p .destory p.destory
  | destroy : Moves lib p .destroy { p.destory with destroying := true }
  | disconnect : Moves lib p .disconnect p.disconnect
  | leave {ws : WebsocketTransport} (hws : p.ws.step (.leave 0) = some ws) :
      Moves lib p .leave { p with ws, owner := .idle }
  | stop : Moves lib p .stop { p with stopped := true }
  | poll (hio : p.io = .created ∨ p.io = .handling ∨ (p.io = .running ∧ p.stopped = true)) :
      Moves lib p .poll p.poll
  | expire : Moves lib p .expire
      { p with session.keepAliveTimer := p.session.keepAliveTimer.expire }
  | handler {e : Event} {q : SessionProcess} (hrun : p.io = .running)
      (hq : p.handler lib e = some q) : Moves lib p e q.handled

theorem step_moves {e : Event} (he : p.step lib e = some p') : Moves lib p e p' := by
  have hhandler (e : Event) (he : (if p.io = .running ∧ p.stopped = false then
      (p.handler lib e).map handled else none) = some p') : Moves lib p e p' := by
    split_ifs at he with hrun
    obtain ⟨q, hq, rfl⟩ := Option.map_eq_some_iff.mp he
    exact .handler hrun.1 hq
  cases e with
  | init | destory | destroy | disconnect | stop =>
    simp only [step] at he
    split_ifs at he
    obtain rfl := Option.some.inj he
    constructor
  | leave =>
    simp only [step, leave] at he
    split_ifs at he
    obtain ⟨ws, hws, rfl⟩ := Option.map_eq_some_iff.mp he
    exact .leave hws
  | poll =>
    simp only [step] at he
    split_ifs at he with hio
    obtain rfl := Option.some.inj he
    exact .poll hio
  | expire =>
    obtain rfl := Option.some.inj he
    exact .expire
  | completion c | handshaken ec tsd | readDone i ec | waitDone ec tsd => exact hhandler _ he

theorem handler_io {e : Event} (h : p.handler lib e = some p') :
    p'.io = p.io ∨ ∃ fault, p'.io = .terminated fault := by
  cases e with
  | completion c =>
    obtain ⟨ws, -, rfl⟩ := Option.map_eq_some_iff.mp h
    exact Or.inl rfl
  | handshaken ec tsd =>
    simp only [handler] at h
    split_ifs at h
    obtain rfl := Option.some.inj h
    cases ec <;> exact Or.inl rfl
  | readDone i ec =>
    obtain ⟨r, -, rfl⟩ := Option.map_eq_some_iff.mp h
    cases ec with
    | some ec => exact Or.inl rfl
    | none =>
      simp only [onRead]
      cases (p.session.onMsg lib (p.ws.readCompletes i r none).buffer).2 <;> simp
  | waitDone ec tsd =>
    obtain ⟨timer, -, rfl⟩ := Option.map_eq_some_iff.mp h
    exact Or.inl rfl
  | init | destory | destroy | disconnect | leave | stop | poll | expire => cases h

/-! ### What a step does to the transport and to the session -/

/-- The step that the transport takes by itself for the event. -/
def Event.onTransport (cs : List Call) : Event → Option WebsocketTransport.Event
  | .init => some (.enter .connect)
  | .disconnect => some (.enter .disconnect)
  | .leave => some (.leave 0)
  | .completion c => some c.event
  | .handshaken ec _ => some (.handshaken ec cs)
  | .readDone i ec => some (.readDone i ec cs)
  | _ => none

inductive TransportMoves (p p' : SessionProcess) (e : Event) : Prop
  | kept (hws : p'.ws = p.ws)
  | step {f : WebsocketTransport.Event} (cs : List Call) (hf : e.onTransport cs = some f)
      (hws : p.ws.step f = some p'.ws)
  | calls (cs : List Call) (hws : p'.ws = p.ws.calls cs)
  | thrown (i : ℕ) (r : WebsocketTransport.Read) (msg : Bytes) (fault : Fault)
      (hws : p'.ws = (p.ws.readCompletes i r none).output (.msgCallback msg))
      (hio : p'.io = .terminated fault)

theorem transport_handler {e : Event} (hq : p.handler lib e = some p') :
    TransportMoves p p'.handled e := by
  cases e with
  | completion c =>
    obtain ⟨ws, hws, rfl⟩ := Option.map_eq_some_iff.mp hq
    exact .step [] rfl hws
  | handshaken ec tsd =>
    simp only [handler] at hq
    split_ifs at hq with hh
    obtain rfl := Option.some.inj hq
    cases ec with
    | some ec => exact .step [] rfl (WebsocketTransport.step_handshaken.mpr ⟨hh, rfl⟩)
    | none =>
      exact .step (p.session.onConnect lib tsd).2 rfl
        (WebsocketTransport.step_handshaken.mpr ⟨hh, rfl⟩)
  | readDone i ec =>
    obtain ⟨r, hr, rfl⟩ := Option.map_eq_some_iff.mp hq
    have hread : p.ws.step (.readDone i ec []) = some ((p.ws.readCompletes i r ec).onRead [] ec) :=
      WebsocketTransport.step_readDone.mpr ⟨r, hr, rfl⟩
    cases ec with
    | some ec => exact .step [] rfl hread
    | none =>
      simp only [onRead]
      cases (p.session.onMsg lib (p.ws.readCompletes i r none).buffer).2 with
      | ok u => exact .step [] rfl hread
      | error fault => exact .thrown i r _ fault rfl rfl
  | waitDone ec tsd =>
    obtain ⟨timer, -, rfl⟩ := Option.map_eq_some_iff.mp hq
    exact .calls _ rfl
  | init | destory | destroy | disconnect | leave | stop | poll | expire => cases hq

theorem transport_moves {e : Event} (he : p.step lib e = some p') : TransportMoves p p' e := by
  cases step_moves he with
  | init =>
    refine .step [] rfl ?_
    by_cases hc : p.ws.connected = true <;>
    simp [WebsocketTransport.step, WebsocketTransport.passes, WebsocketTransport.refuse, init, hc]
  | disconnect =>
    refine .step [] rfl ?_
    by_cases ho : p.ws.isOpen = true <;>
    simp [WebsocketTransport.step, WebsocketTransport.passes, WebsocketTransport.refuse,
      disconnect, ho]
  | leave hws => exact .step [] rfl hws
  | destory | destroy | stop | poll hio | expire => exact .kept rfl
  | handler hrun hq => exact transport_handler hq

def Event.keepsSession : Event → Bool
  | .destory | .destroy | .expire | .handshaken none _ | .readDone _ none | .waitDone _ _ => false
  | _ => true

inductive SessionMoves (lib : Nlohmann F) (p p' : SessionProcess) : Event → Prop
  | kept {e : Event} (hk : e.keepsSession = true) (hs : p'.session = p.session) :
      SessionMoves lib p p' e
  | cancelled {e : Event} (hd : e = .destory ∨ e = .destroy)
      (hs : p'.session = { p.session with keepAliveTimer := p.session.keepAliveTimer.cancel }) :
      SessionMoves lib p p' e
  | expired
      (hs : p'.session = { p.session with keepAliveTimer := p.session.keepAliveTimer.expire }) :
      SessionMoves lib p p' .expire
  | connected {tsd : String} (hs : p'.session = (p.session.onConnect lib tsd).1) :
      SessionMoves lib p p' (.handshaken none tsd)
  | received {i : ℕ} {r : WebsocketTransport.Read} (hr : p.ws.reads[i]? = some r)
      (hs : p'.session = (p.session.onMsg lib (p.ws.readCompletes i r none).buffer).1) :
      SessionMoves lib p p' (.readDone i none)
  | waited {ec : ErrorCode} {tsd : String} {timer : SteadyTimer}
      (ht : p.session.keepAliveTimer.take ec.isSome = some timer)
      (hs : p'.session = ({ p.session with keepAliveTimer := timer }.onWait lib tsd ec).1) :
      SessionMoves lib p p' (.waitDone ec tsd)

theorem session_handler {e : Event} (hq : p.handler lib e = some p') :
    SessionMoves lib p p'.handled e := by
  cases e with
  | completion c =>
    obtain ⟨ws, -, rfl⟩ := Option.map_eq_some_iff.mp hq
    exact .kept rfl rfl
  | handshaken ec tsd =>
    simp only [handler] at hq
    split_ifs at hq
    obtain rfl := Option.some.inj hq
    cases ec with
    | some ec => exact .kept rfl rfl
    | none => exact .connected rfl
  | readDone i ec =>
    obtain ⟨r, hr, rfl⟩ := Option.map_eq_some_iff.mp hq
    cases ec with
    | some ec => exact .kept rfl rfl
    | none =>
      refine .received hr ?_
      simp only [onRead]
      cases (p.session.onMsg lib (p.ws.readCompletes i r none).buffer).2 <;> rfl
  | waitDone ec tsd =>
    obtain ⟨timer, ht, rfl⟩ := Option.map_eq_some_iff.mp hq
    exact .waited ht rfl
  | init | destory | destroy | disconnect | leave | stop | poll | expire => cases hq

theorem session_moves {e : Event} (he : p.step lib e = some p') : SessionMoves lib p p' e := by
  cases step_moves he with
  | init =>
    refine .kept rfl ?_
    simp only [init]
    split_ifs <;> rfl
  | disconnect =>
    refine .kept rfl ?_
    simp only [disconnect]
    split_ifs <;> rfl
  | destory => exact .cancelled (Or.inl rfl) rfl
  | destroy => exact .cancelled (Or.inr rfl) rfl
  | leave hws | stop | poll hio => exact .kept rfl rfl
  | expire => exact .expired rfl
  | handler hrun hq => exact session_handler hq

end Inversion

end SessionProcess
end WebrtcNativeDemo
