import WebrtcNativeDemo.Library.EventSystem

/-!
# The websocket transport

`WebsocketTransport` of `11_rtc_janus/websocket_transport.cc`, together with what
Asio and Beast keep for it: the operations started and not yet completed, the
closures posted to the strand of `ws_`, and whether the stream is open.

Each handler is one atomic step, as the strand runs them. A call from another
thread is two steps, the test of its guard and the action behind it, so that
handlers and other callers may run in between. Neither step falls inside a handler:
what a thread does while a handler is being run counts as done before it, when the
operation of the handler is still outstanding. The environment decides which
operation completes next and with which error; `hist` records what was called
and what completed, in order.
-/

namespace WebrtcNativeDemo

abbrev Bytes := List UInt8

/-- `boost::beast::error_code`: no error, or an error with its message. -/
abbrev ErrorCode := Option String

namespace WebsocketTransport

/-- A `std::shared_ptr<std::string const>`: the object `SendMsg` allocates and its text. -/
structure Msg where
  addr : ℕ
  text : String
deriving DecidableEq, Repr

/-- An outstanding `async_read` with the bytes of its message that have arrived.
`conn` counts the handshakes that had succeeded when it was started. -/
structure Read where
  conn : ℕ
  got : Bytes
deriving DecidableEq, Repr

structure Write where
  conn : ℕ
  msg : Msg
deriving DecidableEq, Repr

structure Close where
  conn : ℕ
deriving DecidableEq, Repr

inductive Posted
  | sendDataInner (data : Msg)
  | disconnect
deriving DecidableEq, Repr

inductive Call
  | sendMsg (msg : String)
  | connect
  | disconnect
deriving DecidableEq, Repr

inductive Output
  | log (line : String)
  | accepted (data : Msg)
  | asyncResolve (host service : String)
  | asyncConnect
  | asyncHandshake (host target subprotocol : String)
  | asyncRead (buffer : Bytes)
  | asyncWrite (data : Msg)
  | asyncClose (conn : ℕ)
  | handshakeDone (ec : ErrorCode)
  | readDone (conn : ℕ) (ec : ErrorCode) (got : Bytes)
  | writeDone (conn : ℕ) (ec : ErrorCode) (data : Msg)
  | closeDone (conn : ℕ) (ec : ErrorCode)
  | popped (data : Msg)
  | emptyAccess
  | connectCallback
  | msgCallback (msg : Bytes)
deriving DecidableEq, Repr

end WebsocketTransport

open WebsocketTransport in
structure WebsocketTransport where
  host : String
  port : Int16
  subprotocol : String
  connectCallback : Bool := false
  msgCallback : Bool := false
  buffer : Bytes := []
  sendMsgQueue : List Msg := []
  connected : Bool := false
  -- Asio and Beast: the stream, the outstanding operations, the strand
  isOpen : Bool := false
  conn : ℕ := 0
  resolves : ℕ := 0
  connects : ℕ := 0
  handshakes : ℕ := 0
  reads : List Read := []
  writes : List Write := []
  closes : List Close := []
  posted : List Posted := []
  -- calls of other threads that are past their guard
  entered : List Call := []
  allocated : ℕ := 0
  hist : List Output := []
deriving DecidableEq, Repr

namespace WebsocketTransport

def create (host : String) (port : Int16) (subprotocol : String := "") : WebsocketTransport :=
  { host, port, subprotocol }

def setConnectCallback (t : WebsocketTransport) : WebsocketTransport :=
  { t with connectCallback := true }

def setMsgCallback (t : WebsocketTransport) : WebsocketTransport :=
  { t with msgCallback := true }

def output (t : WebsocketTransport) (o : Output) : WebsocketTransport :=
  { t with hist := t.hist ++ [o] }

def fail (t : WebsocketTransport) (ec what : String) : WebsocketTransport :=
  t.output (.log (what ++ ":" ++ ec))

/-! ### Starting operations -/

def asyncResolve (t : WebsocketTransport) (host service : String) : WebsocketTransport :=
  { t with resolves := t.resolves + 1, hist := t.hist ++ [.asyncResolve host service] }

def asyncConnect (t : WebsocketTransport) : WebsocketTransport :=
  { t with connects := t.connects + 1, hist := t.hist ++ [.asyncConnect] }

def asyncHandshake (t : WebsocketTransport) (host target subprotocol : String) :
    WebsocketTransport :=
  { t with
    handshakes := t.handshakes + 1
    hist := t.hist ++ [.asyncHandshake host target subprotocol] }

def asyncRead (t : WebsocketTransport) : WebsocketTransport :=
  { t with reads := t.reads ++ [⟨t.conn, []⟩], hist := t.hist ++ [.asyncRead t.buffer] }

def asyncWrite (t : WebsocketTransport) (data : Msg) : WebsocketTransport :=
  { t with writes := t.writes ++ [⟨t.conn, data⟩], hist := t.hist ++ [.asyncWrite data] }

/-- The stream leaves the open state when the close frame starts to be sent: at
once, unless a write is outstanding, which the close waits for. -/
def asyncClose (t : WebsocketTransport) : WebsocketTransport :=
  { t with
    closes := t.closes ++ [⟨t.conn⟩]
    isOpen := t.isOpen && !t.writes.isEmpty
    hist := t.hist ++ [.asyncClose t.conn] }

/-! ### The calls of the class -/

/-- `SendMsg` behind its guard: the string is allocated and its closure posted. -/
def postSend (t : WebsocketTransport) (msg : String) : WebsocketTransport :=
  let data : Msg := ⟨t.allocated, msg⟩
  { t with
    allocated := t.allocated + 1
    posted := t.posted ++ [.sendDataInner data]
    hist := t.hist ++ [.accepted data] }

def sendMsg (t : WebsocketTransport) (msg : String) : WebsocketTransport :=
  if !t.connected then t.output (.log "websocket not connect, cannot send msg")
  else t.postSend msg

def startResolve (t : WebsocketTransport) : WebsocketTransport :=
  t.asyncResolve t.host (toString t.port.toInt)

def connect (t : WebsocketTransport) : WebsocketTransport :=
  if t.connected then t else t.startResolve

def postClose (t : WebsocketTransport) : WebsocketTransport :=
  { t with posted := t.posted ++ [.disconnect] }

def disconnect (t : WebsocketTransport) : WebsocketTransport :=
  if t.isOpen then t.postClose else t

def call (t : WebsocketTransport) : Call → WebsocketTransport
  | .sendMsg msg => t.sendMsg msg
  | .connect => t.connect
  | .disconnect => t.disconnect

def calls (t : WebsocketTransport) (cs : List Call) : WebsocketTransport :=
  cs.foldl call t

/-! ### The handlers -/

def onResolve (t : WebsocketTransport) : ErrorCode → WebsocketTransport
  | some ec => t.fail ec "resolve"
  | none => t.asyncConnect

def onConnect (t : WebsocketTransport) : ErrorCode → WebsocketTransport
  | some ec => t.fail ec "connect"
  | none => t.asyncHandshake t.host "/" t.subprotocol

def doRead (t : WebsocketTransport) : WebsocketTransport := t.asyncRead

/-- `cs` are the calls the connect callback makes on the transport. -/
def onHandshake (t : WebsocketTransport) (cs : List Call) : ErrorCode → WebsocketTransport
  | some ec => t.fail ec "handshake"
  | none =>
    let t := { t with connected := true }
    let t := if t.connectCallback then (t.output .connectCallback).calls cs else t
    t.doRead

/-- `cs` are the calls the message callback makes on the transport. -/
def onRead (t : WebsocketTransport) (cs : List Call) : ErrorCode → WebsocketTransport
  | some ec => { t with connected := false }.fail ec "read"
  | none =>
    let t := if t.msgCallback then (t.output (.msgCallback t.buffer)).calls cs else t
    let t := { t with buffer := t.buffer.drop t.buffer.length }
    t.doRead

/-- `async_write` of `send_msg_queue_.front()`. -/
def writeFront (t : WebsocketTransport) : WebsocketTransport :=
  match t.sendMsgQueue with
  | [] => t.output .emptyAccess
  | data :: _ => t.asyncWrite data

/-- `send_msg_queue_.erase(send_msg_queue_.begin())`. -/
def eraseFront (t : WebsocketTransport) : WebsocketTransport :=
  match t.sendMsgQueue with
  | [] => t.output .emptyAccess
  | data :: rest => { t with sendMsgQueue := rest }.output (.popped data)

def onWrite (t : WebsocketTransport) : ErrorCode → WebsocketTransport
  | some ec => { t with connected := false }.fail ec "write"
  | none =>
    let t := t.eraseFront
    if !t.sendMsgQueue.isEmpty then t.writeFront else t

def onClose (t : WebsocketTransport) : ErrorCode → WebsocketTransport
  | some ec => t.fail ec "close"
  | none => { t with connected := false }.output (.log "websocket closed")

def sendDataInner (t : WebsocketTransport) (data : Msg) : WebsocketTransport :=
  let t := { t with sendMsgQueue := t.sendMsgQueue ++ [data] }
  if t.sendMsgQueue.length > 1 then t else t.writeFront

def runPosted (t : WebsocketTransport) : Posted → WebsocketTransport
  | .sendDataInner data => t.sendDataInner data
  | .disconnect => if !t.isOpen then t else t.asyncClose

/-! ### Completions, as the libraries see them -/

def handshakeCompletes (t : WebsocketTransport) : ErrorCode → WebsocketTransport
  | some ec => { t with handshakes := t.handshakes - 1 }.output (.handshakeDone (some ec))
  | none =>
    { t with
      handshakes := t.handshakes - 1
      isOpen := true
      conn := t.conn + 1 }.output (.handshakeDone none)

/-- An error of an operation on the current connection takes the stream out of
the open state; one of an earlier connection does not concern it. -/
def openAfter (t : WebsocketTransport) (conn : ℕ) : ErrorCode → Bool
  | some _ => t.isOpen && conn != t.conn
  | none => t.isOpen

def readCompletes (t : WebsocketTransport) (i : ℕ) (r : Read) (ec : ErrorCode) :
    WebsocketTransport :=
  { t with
    reads := t.reads.eraseIdx i
    isOpen := t.openAfter r.conn ec }.output (.readDone r.conn ec r.got)

def writeCompletes (t : WebsocketTransport) (i : ℕ) (w : Write) (ec : ErrorCode) :
    WebsocketTransport :=
  { t with
    writes := t.writes.eraseIdx i
    isOpen := t.openAfter w.conn ec }.output (.writeDone w.conn ec w.msg)

def closeCompletes (t : WebsocketTransport) (i : ℕ) (c : Close) (ec : ErrorCode) :
    WebsocketTransport :=
  { t with
    closes := t.closes.eraseIdx i
    isOpen := t.isOpen && c.conn != t.conn }.output (.closeDone c.conn ec)

def frameArrives (t : WebsocketTransport) (i : ℕ) (r : Read) (bytes : Bytes) :
    WebsocketTransport :=
  { t with
    reads := t.reads.set i { r with got := r.got ++ bytes }
    buffer := t.buffer ++ bytes }

/-! ### Steps -/

/-- The guard at the head of `SendMsg`, `Connect` and `Disconnect`. -/
def passes (t : WebsocketTransport) : Call → Bool
  | .sendMsg _ => t.connected
  | .connect => !t.connected
  | .disconnect => t.isOpen

def act (t : WebsocketTransport) : Call → WebsocketTransport
  | .sendMsg msg => t.postSend msg
  | .connect => t.startResolve
  | .disconnect => t.postClose

def refuse (t : WebsocketTransport) : Call → WebsocketTransport
  | .sendMsg _ => t.output (.log "websocket not connect, cannot send msg")
  | .connect => t
  | .disconnect => t

theorem call_eq (t : WebsocketTransport) (c : Call) :
    t.call c = if t.passes c then t.act c else t.refuse c := by
  cases c with
  | sendMsg msg =>
    by_cases h : t.connected = true <;> simp [call, sendMsg, passes, act, refuse, h]
  | connect =>
    by_cases h : t.connected = true <;> simp [call, connect, passes, act, refuse, h]
  | disconnect => rfl

inductive Event
  | enter (c : Call)
  | leave (i : ℕ)
  | resolved (ec : ErrorCode)
  | tcpConnected (ec : ErrorCode)
  | handshaken (ec : ErrorCode) (cs : List Call)
  | frame (i : ℕ) (bytes : Bytes)
  | readDone (i : ℕ) (ec : ErrorCode) (cs : List Call)
  | writeDone (i : ℕ) (ec : ErrorCode)
  | closeDone (i : ℕ) (ec : ErrorCode)
  | runPosted
  /-- The stream leaves the open state inside Beast: the peer closes, a timeout, a
  failure not yet reported to a handler, or a waiting close sends its frame. -/
  | notOpen

def step (t : WebsocketTransport) : Event → Option WebsocketTransport
  | .enter c => some (if t.passes c then { t with entered := t.entered ++ [c] } else t.refuse c)
  | .leave i => t.entered[i]?.map fun c => { t with entered := t.entered.eraseIdx i }.act c
  | .resolved ec =>
    if t.resolves = 0 then none else some ({ t with resolves := t.resolves - 1 }.onResolve ec)
  | .tcpConnected ec =>
    if t.connects = 0 then none else some ({ t with connects := t.connects - 1 }.onConnect ec)
  | .handshaken ec cs =>
    if t.handshakes = 0 then none else some ((t.handshakeCompletes ec).onHandshake cs ec)
  | .frame i bytes => t.reads[i]?.map fun r => t.frameArrives i r bytes
  | .readDone i ec cs => t.reads[i]?.map fun r => (t.readCompletes i r ec).onRead cs ec
  | .writeDone i ec => t.writes[i]?.map fun w => (t.writeCompletes i w ec).onWrite ec
  | .closeDone i ec => t.closes[i]?.map fun c => (t.closeCompletes i c ec).onClose ec
  | .runPosted =>
    match t.posted with
    | [] => none
    | p :: rest => some ({ t with posted := rest }.runPosted p)
  | .notOpen => some { t with isOpen := false }

/-- A transport before any call: constructed, and its callbacks set or not. -/
inductive Fresh : WebsocketTransport → Prop
  | create (host : String) (port : Int16) (subprotocol : String) :
      Fresh (create host port subprotocol)
  | setConnectCallback {t : WebsocketTransport} : Fresh t → Fresh t.setConnectCallback
  | setMsgCallback {t : WebsocketTransport} : Fresh t → Fresh t.setMsgCallback

def system : EventSystem WebsocketTransport Event := ⟨Fresh, step⟩

end WebsocketTransport
end WebrtcNativeDemo
