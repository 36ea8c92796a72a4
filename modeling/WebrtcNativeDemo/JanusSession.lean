import Mathlib.Data.List.AList
import WebrtcNativeDemo.Json
import WebrtcNativeDemo.Library.SteadyTimer

/-!
# The handlers of a Janus session

`JanusSession` of `11_rtc_janus/janus_session.cc`: the members its handlers share
and the handlers themselves. A handler that calls `ws_` returns the calls it makes
beside the new state. `OnMsg` may leave with an exception; the state it returns then
is the one at the throw. The random strings of `CreateRandomString` are inputs.
-/

namespace WebrtcNativeDemo

open WebsocketTransport (Call)

namespace JanusSession

def keepaliveIntervalSeconds : ℕ := 5

/-- An empty `std::function`, or the lambda that `OnConnect` registers. -/
inductive OnResponseCallback
  | empty
  | create
deriving DecidableEq, Repr

inductive Output
  | log (line : String)
  | received (msg : Bytes)
  | ran (tsd : String)
  | keepAlive
  | doKeepAlive
deriving DecidableEq, Repr

end JanusSession

open JanusSession in
structure JanusSession where
  sessionId : Int64 := -1
  keepAliveTimer : SteadyTimer := {}
  responseCallbackMap : AList fun _ : String => OnResponseCallback := ∅
  hist : List Output := []

namespace JanusSession

variable {F : Type} (lib : Nlohmann F)

def output (s : JanusSession) (o : Output) : JanusSession := { s with hist := s.hist ++ [o] }

def keepAlive (s : JanusSession) : JanusSession :=
  { s with
    keepAliveTimer := (s.keepAliveTimer.expiresFromNow keepaliveIntervalSeconds).asyncWait
    hist := s.hist ++ [.keepAlive] }

/-- `create`, its members in the order of the keys. -/
def createMsg (tsd : String) : Json F :=
  .object [("janus", .string "create"), ("transaction", .string tsd)]

def keepaliveMsg (sessionId : Int64) (tsd : String) : Json F :=
  .object [("janus", .string "keepalive"), ("session_id", .numberInteger sessionId),
    ("transaction", .string tsd)]

def doKeepAlive (s : JanusSession) (tsd : String) : JanusSession × List Call :=
  let s := s.output .doKeepAlive
  if s.sessionId = -1 then (s, [])
  else
    let keepalive := lib.dump (keepaliveMsg s.sessionId tsd)
    (s.output (.log keepalive), [.sendMsg keepalive])

/-- The handler of a wait on `keep_alive_timer_`. -/
def onWait (s : JanusSession) (tsd : String) : ErrorCode → JanusSession × List Call
  | some _ => (s, [])
  | none =>
    let (s, cs) := s.doKeepAlive lib tsd
    (s.keepAlive, cs)

def onConnect (s : JanusSession) (tsd : String) : JanusSession × List Call :=
  let s := s.output (.log ">>>>> connect janus")
  let s := { s with responseCallbackMap := s.responseCallbackMap.insert tsd .create }
  let create := lib.dump (createMsg tsd)
  (s.output (.log create), [.sendMsg create])

def createSucceeded (s : JanusSession) (res : Json F) : Except Fault JanusSession := do
  let data ← res.subscript "data"
  let id ← data.subscript "id"
  let sessionId ← id.getInt64 lib
  return ({ s with sessionId }.output (.log (">>>>> session_id:" ++ toString sessionId))).keepAlive

def createFailed (s : JanusSession) (res : Json F) : Except Fault JanusSession := do
  let error ← res.subscript "error"
  let code ← error.subscript "code"
  let code ← code.getInt32 lib
  let error ← res.subscript "error"
  let reason ← error.subscript "reason"
  let reason ← reason.getString
  return s.output (.log ("create janus session failed, code:" ++ toString code ++
    ", reason:" ++ reason))

/-- The lambda registered by `OnConnect`. -/
def onCreateResponse (s : JanusSession) (res : Json F) : Except Fault JanusSession := do
  let success ← res.value "janus" ""
  if success = "success" then s.createSucceeded lib res
  else if success = "error" then s.createFailed lib res
  else return s

/-- What `OnMsg` does with the callback it has taken out of the map. -/
def runCallback (s : JanusSession) (tsd : String) (message : Json F) :
    OnResponseCallback → JanusSession × Except Fault Unit
  | .empty => (s, .ok ())
  | .create =>
    let s := s.output (.ran tsd)
    match s.onCreateResponse lib message with
    | .ok s => (s, .ok ())
    | .error fault => (s, .error fault)

def onMsg (s : JanusSession) (msg : Bytes) : JanusSession × Except Fault Unit :=
  let s := s.output (.received msg)
  match lib.parse msg with
  | none => (s, .error .parseError)
  | some message =>
    match message.value "transaction" "" with
    | .error fault => (s, .error fault)
    | .ok tsd =>
      if tsd = "" then (s, .ok ())
      else
        match s.responseCallbackMap.lookup tsd with
        | none => (s, .ok ())
        | some callback =>
          runCallback lib
            { s with responseCallbackMap := s.responseCallbackMap.erase tsd } tsd message callback

/-! ### What the handlers change -/

/-- The number under `data.id`, as the create callback reads it. -/
def SuccessId (message : Json F) (n : Int64) : Prop :=
  ∃ data id, message.find "data" = some data ∧ data.find "id" = some id ∧ id.getInt64 lib = .ok n

def ErrorReason (message : Json F) (code : Int32) (reason : String) : Prop :=
  ∃ error c r, message.find "error" = some error ∧ error.find "code" = some c ∧
    c.getInt32 lib = .ok code ∧ error.find "reason" = some r ∧ r.getString = .ok reason

variable {lib} {s s' : JanusSession} {message : Json F}

theorem createSucceeded_ok : s.createSucceeded lib message = .ok s' ↔
    ∃ n, SuccessId lib message n ∧
      s' = ({ s with sessionId := n }.output
        (.log (">>>>> session_id:" ++ toString n))).keepAlive := by
  simp only [createSucceeded, Json.bind_ok, Json.subscript_ok, SuccessId, pure, Except.pure,
    Except.ok.injEq]
  constructor
  · intro h
    obtain ⟨data, hdata, id, hid, n, hn, rfl⟩ := h
    exact ⟨n, ⟨data, id, hdata, hid, hn⟩, rfl⟩
  · intro h
    obtain ⟨n, ⟨data, id, hdata, hid, hn⟩, rfl⟩ := h
    exact ⟨data, hdata, id, hid, n, hn, rfl⟩

theorem createFailed_ok : s.createFailed lib message = .ok s' ↔
    ∃ code reason, ErrorReason lib message code reason ∧
      s' = s.output (.log ("create janus session failed, code:" ++ toString code ++
        ", reason:" ++ reason)) := by
  simp only [createFailed, Json.bind_ok, Json.subscript_ok, ErrorReason, pure, Except.pure,
    Except.ok.injEq]
  constructor
  · intro h
    obtain ⟨error, he, c, hc, code, hcode, error', he', r, hr, reason, hreason, rfl⟩ := h
    obtain rfl : error = error' := Option.some.inj (he.symm.trans he')
    exact ⟨code, reason, ⟨error, c, r, he, hc, hcode, hr, hreason⟩, rfl⟩
  · intro h
    obtain ⟨code, reason, ⟨error, c, r, he, hc, hcode, hr, hreason⟩, rfl⟩ := h
    exact ⟨error, he, c, hc, code, hcode, error, he, r, hr, reason, hreason, rfl⟩

theorem onCreateResponse_ok : s.onCreateResponse lib message = .ok s' ↔
    ∃ success, message.value "janus" "" = .ok success ∧
      ((success = "success" ∧ s.createSucceeded lib message = .ok s') ∨
        (success = "error" ∧ s.createFailed lib message = .ok s') ∨
        (success ≠ "success" ∧ success ≠ "error" ∧ s' = s)) := by
  simp only [onCreateResponse, Json.bind_ok]
  apply exists_congr
  intro success
  apply and_congr_right
  intro _
  by_cases hs : success = "success"
  · simp [hs]
  · by_cases he : success = "error"
    · simp [he]
    · simp [hs, he, pure, Except.pure, eq_comm]

theorem onCreateResponse_frame (h : s.onCreateResponse lib message = .ok s') :
    s'.responseCallbackMap = s.responseCallbackMap ∧
      (s'.sessionId = s.sessionId ∨
        message.value "janus" "" = .ok "success" ∧ SuccessId lib message s'.sessionId) := by
  obtain ⟨success, hv, ⟨rfl, hs⟩ | ⟨-, hf⟩ | ⟨-, -, rfl⟩⟩ := onCreateResponse_ok.mp h
  · obtain ⟨n, hn, rfl⟩ := createSucceeded_ok.mp hs
    exact ⟨rfl, Or.inr ⟨hv, hn⟩⟩
  · obtain ⟨code, reason, -, rfl⟩ := createFailed_ok.mp hf
    exact ⟨rfl, Or.inl rfl⟩
  · exact ⟨rfl, Or.inl rfl⟩

def transaction (lib : Nlohmann F) (msg : Bytes) : Option String :=
  match (lib.parse msg).bind fun message => message.find "transaction" with
  | some (.string tsd) => some tsd
  | _ => none

theorem transaction_eq_some {msg : Bytes} {tsd : String} :
    transaction lib msg = some tsd ↔
      ∃ message, lib.parse msg = some message ∧
        message.find "transaction" = some (.string tsd) := by
  simp only [transaction]
  cases hp : lib.parse msg with
  | none => simp
  | some message =>
    rcases hf : message.find "transaction" with _ | v
    · simp [hf]
    · cases v <;> simp [hf]

theorem onMsg_unregistered {msg : Bytes}
    (h : ∀ tsd, transaction lib msg = some tsd → tsd ≠ "" → tsd ∉ s.responseCallbackMap) :
    (s.onMsg lib msg).1 = s.output (.received msg) := by
  simp only [onMsg]
  cases hp : lib.parse msg with
  | none => rfl
  | some message =>
    cases hv : message.value "transaction" "" with
    | error fault => simp only [hv]
    | ok tsd =>
      by_cases hempty : tsd = ""
      · simp only [hv, if_pos hempty]
      · obtain ⟨-, hf | ⟨-, hnil⟩⟩ := Json.value_ok.mp hv
        · have hmem := h tsd (transaction_eq_some.mpr ⟨message, hp, hf⟩) hempty
          have hnone : s.responseCallbackMap.lookup tsd = none := AList.lookup_eq_none.mpr hmem
          simp only [hv, if_neg hempty, output, hnone]
        · exact absurd hnil.symm hempty

theorem onMsg_registered {msg : Bytes} {tsd : String} {callback : OnResponseCallback}
    (hp : lib.parse msg = some message) (ht : message.find "transaction" = some (.string tsd))
    (hempty : tsd ≠ "") (hcb : s.responseCallbackMap.lookup tsd = some callback) :
    s.onMsg lib msg = runCallback lib { s.output (.received msg) with
      responseCallbackMap := s.responseCallbackMap.erase tsd } tsd message callback := by
  have hv : message.value "transaction" "" = .ok tsd :=
    Json.value_ok.mpr ⟨Json.find_isObject ht, Or.inl ht⟩
  simp only [onMsg, hp, hv, if_neg hempty, output, hcb]

end JanusSession
end WebrtcNativeDemo
