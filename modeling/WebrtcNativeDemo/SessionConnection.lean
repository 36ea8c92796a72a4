import WebrtcNativeDemo.SessionTimer

/-!
# Keep-alives and the connection they are sent on

The identifier and the timer of a session outlive its connection. A record beside the
run says what the connection of the latest handshake has asked for and been given. The
keep-alives name a session of that connection as long as no handshake succeeds while a
wait for an earlier session is left, and no answer to an earlier connection is taken
while the transport is connected.
-/

namespace WebrtcNativeDemo.SessionProcess

open WebsocketTransport (accepted)
open JanusSession (keepaliveMsg)

variable {F : Type} (lib : Nlohmann F)

/-- The create request of the latest handshake, and the identifiers it was answered with. -/
structure Connection where
  request : Option String := none
  ids : List Int64 := []

def Connection.record (c : Connection) (p : SessionProcess) : Event → Connection
  | .handshaken none tsd => ⟨some tsd, []⟩
  | e =>
    match answeredBy lib p e with
    | none => c
    | some (tsd, n) => if c.request = some tsd then { c with ids := c.ids ++ [n] } else c

def observed : EventSystem (SessionProcess × Connection) Event :=
  (system lib).observe {} (Connection.record lib)

/-- A keepalive message that a wait has sent in the step from `x` to `y`, as far as
`SendMsg` has accepted it, names a session of the connection. -/
def NamesConnection (x : SessionProcess × Connection) (e : Event)
    (y : SessionProcess × Connection) : Prop :=
  ∀ tsd l, e = .waitDone none tsd → accepted y.1.ws.hist = accepted x.1.ws.hist ++ l →
    ∀ data ∈ l, ∃ n ∈ x.2.ids, data.text = lib.dump (keepaliveMsg n tsd)

def Event.handshakes : Event → Bool
  | .handshaken none _ => true
  | _ => false

/-- A handshake succeeds only when no wait is left or no session was created yet, and a
success response that arrives while connected answers the request of this connection,
or has an identifier that does no harm. -/
def FreshConnection (x : SessionProcess × Connection) (e : Event) : Prop :=
  (e.handshakes = true →
    x.1.session.keepAliveTimer.live = 0 ∨ x.1.session.sessionId = -1) ∧
  ∀ answer ∈ answeredBy lib x.1 e, x.1.ws.connected = true →
    x.2.request = some answer.1 ∨ answer.2 = -1 ∨ answer.2 ∈ x.2.ids

instance (x : SessionProcess × Connection) (e : Event) : Decidable (FreshConnection lib x e) :=
  inferInstanceAs (Decidable (_ ∧ _))

/-- The session of a connected transport is one of the connection, or no wait could
tell the server otherwise. -/
def Current (x : SessionProcess × Connection) : Prop :=
  x.1.ws.connected = true → x.1.session.sessionId = -1 ∨
    x.1.session.keepAliveTimer.live = 0 ∨ x.1.session.sessionId ∈ x.2.ids

variable {lib} {p p' : SessionProcess} {x y : SessionProcess × Connection}

theorem observed_step {e : Event} : (observed lib).step x e = some y ↔
    x.1.step lib e = some y.1 ∧ y.2 = x.2.record lib x.1 e :=
  EventSystem.observe_step

/-- The record hides no step of the process. -/
theorem takes_observed {es : List Event} {a b : SessionProcess} {e : Event}
    (h : (system lib).Takes p es a e b) :
    ∃ c d, (observed lib).Takes (p, ({} : Connection)) es (a, c) e (b, d) :=
  h.observe _

theorem record_other {c : Connection} {e : Event} (hh : e.handshakes = false)
    (ha : answeredBy lib p e = none) : c.record lib p e = c := by
  cases e with
  | handshaken ec tsd =>
    cases ec with
    | none => cases hh
    | some ec => rfl
  | readDone i ec => simp only [Connection.record, ha]
  | init | destory | destroy | disconnect | leave | stop | poll | expire | completion c
  | waitDone ec tsd => rfl

theorem handshakes_eq_true {e : Event} (h : e.handshakes = true) :
    ∃ tsd, e = .handshaken none tsd := by
  cases e with
  | handshaken ec tsd =>
    cases ec with
    | none => exact ⟨tsd, rfl⟩
    | some ec => cases h
  | init | destory | destroy | disconnect | leave | stop | poll | expire | completion c
  | readDone i ec | waitDone ec tsd => cases h

/-! ### What the steps do to the flag, the identifier and the timer -/

theorem onRead_connected (lib : Nlohmann F) (p : SessionProcess) (i : ℕ)
    (r : WebsocketTransport.Read) : (p.onRead lib i r none).ws.connected = p.ws.connected := by
  simp only [onRead]
  cases (p.session.onMsg lib (p.ws.readCompletes i r none).buffer).2 with
  | ok u =>
    obtain ⟨q, l, a, b, rs, hist, hf⟩ :=
      WebsocketTransport.onRead_frame (p.ws.readCompletes i r none) []
    simp only [hf]
    rfl
  | error fault => rfl

theorem onTransport_handshaken {e : Event} {cs cs' : List WebsocketTransport.Call}
    (hf : e.onTransport cs = some (.handshaken none cs')) : e.handshakes = true := by
  cases e with
  | handshaken ec tsd =>
    obtain ⟨rfl, -⟩ := WebsocketTransport.Event.handshaken.inj (Option.some.inj hf)
    rfl
  | completion c => cases c <;> cases hf
  | init | destory | destroy | disconnect | leave | stop | poll | expire | readDone i ec
  | waitDone ec tsd => cases hf

theorem connected_of_step {e : Event} (he : p.step lib e = some p')
    (hh : e.handshakes = false) (hc : p'.ws.connected = true) : p.ws.connected = true := by
  cases transport_moves he with
  | kept hws => rwa [hws] at hc
  | step cs hf hws =>
    rcases WebsocketTransport.connected_step hws hc with hc | ⟨cs', rfl⟩
    · exact hc
    · rw [onTransport_handshaken hf] at hh
      cases hh
  | calls cs hws => rwa [hws, WebsocketTransport.calls_connected] at hc
  | thrown i r msg fault hws hio => rwa [hws] at hc

theorem session_of_step {e : Event} (he : p.step lib e = some p')
    (ha : answeredBy lib p e = none) : p'.session.sessionId = p.session.sessionId ∧
      (p.session.keepAliveTimer.live = 0 → p'.session.keepAliveTimer.live = 0) := by
  cases session_moves he with
  | kept hk hs =>
    rw [hs]
    exact ⟨rfl, id⟩
  | cancelled hd hs =>
    rw [hs]
    exact ⟨rfl, SteadyTimer.cancel_idle⟩
  | expired hs =>
    rw [hs]
    exact ⟨rfl, fun hl => (SteadyTimer.expire_live _).trans hl⟩
  | connected hs =>
    rw [hs]
    exact ⟨rfl, id⟩
  | received hr hs =>
    simp only [answeredBy, hr, Option.bind_some] at ha
    obtain ⟨hid, htimer⟩ := JanusSession.onMsg_unanswered ha
    rw [hs, hid, htimer]
    exact ⟨rfl, id⟩
  | @waited ec tsd timer ht hs =>
    rw [hs]
    refine ⟨(JanusSession.onWait_frame lib _ tsd ec).2.1, fun hl => ?_⟩
    obtain ⟨herr, hlive⟩ := SteadyTimer.take_live ht hl
    cases ec with
    | none => cases herr
    | some ec => exact hlive

theorem answer_going {i : ℕ} {tsd : String} {n : Int64}
    (he : p.step lib (.readDone i none) = some p')
    (ha : answeredBy lib p (.readDone i none) = some (tsd, n)) :
    p'.ws.connected = p.ws.connected ∧ p'.io = .handling ∧ p'.stopped = false := by
  have hrun : p.io = .running ∧ p.stopped = false := by
    by_contra hno
    simp [step, hno] at he
  cases step_moves he with
  | handler _ hq =>
    obtain ⟨r, hr, rfl⟩ := Option.map_eq_some_iff.mp hq
    simp only [answeredBy, hr, Option.bind_some] at ha
    obtain ⟨-, -, hok⟩ := JanusSession.onMsg_answered ha
    refine ⟨onRead_connected lib p i r, ?_, ?_⟩
    · simp [handled, onRead, hok, hrun.1]
    · simp [handled, onRead, hok, hrun.2]

/-! ### The record -/

theorem current_step {e : Event} (he : (observed lib).step x e = some y) (hx : Current x)
    (hg : FreshConnection lib x e) : Current y := by
  obtain ⟨hstep, hrec⟩ := observed_step.mp he
  intro hc
  rw [hrec]
  cases hh : e.handshakes with
  | true =>
    obtain ⟨tsd, rfl⟩ := handshakes_eq_true hh
    obtain ⟨hid, hlive⟩ := session_of_step hstep rfl
    rcases hg.1 hh with hl | hneg
    · exact Or.inr (Or.inl (hlive hl))
    · exact Or.inl (hid.trans hneg)
  | false =>
    have hold := connected_of_step hstep hh hc
    cases ha : answeredBy lib x.1 e with
    | none =>
      obtain ⟨hid, hlive⟩ := session_of_step hstep ha
      rw [record_other hh ha, hid]
      rcases hx hold with hneg | hl | hmem
      · exact Or.inl hneg
      · exact Or.inr (Or.inl (hlive hl))
      · exact Or.inr (Or.inr hmem)
    | some answer =>
      obtain ⟨tsd, n⟩ := answer
      obtain ⟨i, rfl⟩ := answered_isRead ha
      rw [(step_answered hstep ha).1]
      by_cases hr : x.2.request = some tsd
      · simp [Connection.record, ha, hr]
      · simp only [Connection.record, ha, if_neg hr]
        rcases hg.2 (tsd, n) ha hold with hreq | hneg | hmem
        · exact absurd hreq hr
        · exact Or.inl hneg
        · exact Or.inr (Or.inr hmem)

theorem wait_sends {tsd : String} (he : p.step lib (.waitDone none tsd) = some p') :
    0 < p.session.keepAliveTimer.live ∧
    accepted p'.ws.hist = accepted p.ws.hist ++
      if p.session.sessionId = -1 ∨ p.ws.connected = false then []
      else [⟨p.ws.allocated, lib.dump (keepaliveMsg p.session.sessionId tsd)⟩] := by
  cases step_moves he with
  | handler hrun hq =>
    obtain ⟨timer, ht, rfl⟩ := Option.map_eq_some_iff.mp hq
    refine ⟨SteadyTimer.take_expired ht, ?_⟩
    show accepted (p.onWait lib timer tsd none).ws.hist = _
    simp only [onWait, JanusSession.onWait, JanusSession.doKeepAlive, JanusSession.output]
    by_cases hid : p.session.sessionId = -1
    · simp [hid, WebsocketTransport.calls]
    · cases hc : p.ws.connected <;>
      simp [hid, hc, WebsocketTransport.calls, WebsocketTransport.call, WebsocketTransport.sendMsg,
        WebsocketTransport.output, WebsocketTransport.postSend]

theorem Current.names {e : Event} (hx : Current x) (he : (observed lib).step x e = some y) :
    NamesConnection lib x e y := by
  obtain ⟨hstep, -⟩ := observed_step.mp he
  intro tsd l htsd hl data hmem
  subst htsd
  obtain ⟨hlive, hsent⟩ := wait_sends hstep
  rw [hl, List.append_cancel_left_eq] at hsent
  subst hsent
  split_ifs at hmem with hno
  · cases hmem
  · obtain rfl := List.mem_singleton.mp hmem
    rw [not_or, Bool.not_eq_false] at hno
    refine ⟨x.1.session.sessionId, ?_, rfl⟩
    rcases hx hno.2 with hneg | hl | hid
    · exact absurd hneg hno.1
    · omega
    · exact hid

/-- In a run whose handshakes find no session waiting, and whose answers are those of
the connection, every keep-alive names a session of its connection. -/
theorem keepAlive_names_connection (hp : Fresh p) (es : List Event)
    (hg : ∀ a e b, (observed lib).Takes (p, {}) es a e b → FreshConnection lib a e) :
    ∀ a e b, (observed lib).Takes (p, {}) es a e b → NamesConnection lib a e b := by
  intro a e b hab
  have hstart : Current (p, ({} : Connection)) := by
    obtain ⟨host, port, rfl⟩ := hp
    exact fun _ => Or.inl rfl
  have ha : Current a :=
    EventSystem.takes_invariant (fun _ _ _ => current_step) hstart hg a hab.visits_left
  exact ha.names hab.step

/-- `dump` of the two messages that a session sends. -/
def dumpMember : String × Json Unit → String
  | (key, .string s) => "\"" ++ key ++ "\":\"" ++ s ++ "\""
  | (key, .numberInteger i) => "\"" ++ key ++ "\":" ++ toString i
  | (key, _) => "\"" ++ key ++ "\":null"

def wireLib : Nlohmann Unit where
  parse := JanusSession.exampleLib.parse
  dump
    | .object members => "\x7b" ++ ",".intercalate (members.map dumpMember) ++ "\x7d"
    | _ => "null"
  floatToInt64 := JanusSession.exampleLib.floatToInt64
  floatToInt32 := JanusSession.exampleLib.floatToInt32

def waiting : List Event := [.poll, .expire, .waitDone none "k"]

theorem keepAlive_names_connection_waiting : ∃ a b data,
    (observed wireLib).Takes (create "127.0.0.1" 8188, {})
      (opening "a" ++ answering ++ waiting) a (.waitDone none "k") b ∧
    accepted b.1.ws.hist = accepted a.1.ws.hist ++ [data] ∧
    ∃ n ∈ a.2.ids, data.text = wireLib.dump (keepaliveMsg n "k") := by
  obtain ⟨a, b, data, ha, hb, hdata⟩ : ∃ a b data,
      (observed wireLib).exec (create "127.0.0.1" 8188, {})
        (opening "a" ++ answering ++ [.poll, .expire]) = some a ∧
      (observed wireLib).step a (.waitDone none "k") = some b ∧
      accepted b.1.ws.hist = accepted a.1.ws.hist ++ [data] := ⟨_, _, _, rfl, rfl, rfl⟩
  have htakes := EventSystem.takes_last ha hb
  refine ⟨a, b, data, htakes, hdata, ?_⟩
  refine keepAlive_names_connection ⟨_, _, rfl⟩ _ ?_ a _ b htakes "k" [data] rfl hdata data
    (List.mem_singleton_self data)
  have hall : ∀ s ∈ (observed wireLib).taken (create "127.0.0.1" 8188, {})
      (opening "a" ++ answering ++ waiting), FreshConnection wireLib s.1 s.2.1 := by decide
  exact EventSystem.forall_takes.mpr hall

/-- The connection is lost and made again, and the timer expires before the new create
request is answered: the keep-alive names the session of the lost connection. -/
theorem keepAlive_of_lost_connection : ∃ a b data,
    (observed wireLib).exec (create "127.0.0.1" 8188, {})
      (opening "a" ++ answering ++ [.poll, .readDone 0 (some "End of file"), .init, .leave, .poll,
        .completion (.resolved none), .poll, .completion (.tcpConnected none), .poll,
        .handshaken none "b", .poll, .expire]) = some a ∧
    (observed wireLib).step a (.waitDone none "k") = some b ∧
    a.2.ids = [] ∧ accepted b.1.ws.hist = accepted a.1.ws.hist ++ [data] ∧
    data.text = wireLib.dump (keepaliveMsg 7 "k") ∧
    ¬ NamesConnection wireLib a (.waitDone none "k") b := by
  refine ⟨_, _, _, rfl, rfl, rfl, rfl, rfl, fun hnames => ?_⟩
  obtain ⟨n, hn, -⟩ := hnames "k" _ rfl rfl _ (List.mem_singleton_self _)
  cases hn

/-! ### Where the condition is not met -/

/-- The next expiry of the timer is followed by a keep-alive for another connection. -/
structure Stale (p : SessionProcess) (c : Connection) : Prop where
  handling : p.io = .handling
  going : p.stopped = false
  timer : 0 < p.session.keepAliveTimer.live
  connected : p.ws.connected = true
  session : p.session.sessionId ≠ -1
  foreign : p.session.sessionId ∉ c.ids

theorem stale_handshake {tsd : String} (he : (observed lib).step x (.handshaken none tsd) = some y)
    (hg : ¬ FreshConnection lib x (.handshaken none tsd)) : Stale y.1 y.2 := by
  obtain ⟨hstep, hrec⟩ := observed_step.mp he
  obtain ⟨hlive, hid⟩ : x.1.session.keepAliveTimer.live ≠ 0 ∧ x.1.session.sessionId ≠ -1 := by
    simpa [FreshConnection, answeredBy, Event.handshakes] using hg
  have hrun : x.1.io = .running ∧ x.1.stopped = false := by
    by_contra hno
    simp [step, hno] at hstep
  have hnil : y.2.ids = [] := by
    rw [hrec]
    rfl
  obtain ⟨r, l, a, rs, hist, hf⟩ := WebsocketTransport.onHandshake_frame
    (x.1.ws.handshakeCompletes none) (x.1.session.onConnect lib tsd).2
  simp only [step, if_pos hrun, handler] at hstep
  split_ifs at hstep
  · cases hstep
  · have hy : (x.1.onHandshake lib tsd none).handled = y.1 := Option.some.inj hstep
    constructor
    · rw [← hy]
      simp [handled, onHandshake, hrun.1]
    · rw [← hy]
      exact hrun.2
    · rw [← hy]
      exact Nat.pos_of_ne_zero hlive
    · rw [← hy]
      exact congrArg WebsocketTransport.connected hf
    · rw [← hy]
      exact hid
    · simp [hnil]

theorem stale_answer {i : ℕ} (he : (observed lib).step x (.readDone i none) = some y)
    (hg : ¬ FreshConnection lib x (.readDone i none)) : Stale y.1 y.2 := by
  obtain ⟨hstep, hrec⟩ := observed_step.mp he
  obtain ⟨⟨tsd, n⟩, ha, hc, hforeign⟩ : ∃ answer ∈ answeredBy lib x.1 (.readDone i none),
      x.1.ws.connected = true ∧
        ¬ (x.2.request = some answer.1 ∨ answer.2 = -1 ∨ answer.2 ∈ x.2.ids) := by
    simpa [FreshConnection, Event.handshakes] using hg
  have ha : answeredBy lib x.1 (.readDone i none) = some (tsd, n) := ha
  simp only [not_or] at hforeign
  obtain ⟨hr, hneg, hmem⟩ := hforeign
  obtain ⟨hid, htimer⟩ := step_answered hstep ha
  obtain ⟨hcon, hio, hstop⟩ := answer_going hstep ha
  refine ⟨hio, hstop, ?_, hcon.trans hc, by rwa [hid], ?_⟩
  · rw [htimer]
    exact SteadyTimer.rearm_live_pos _ _
  · rw [hid, hrec]
    simpa [Connection.record, ha, hr] using hmem

theorem Stale.sends {c : Connection} (h : Stale p c) (hdump : ∀ n m tsd,
      lib.dump (keepaliveMsg n tsd) = lib.dump (keepaliveMsg m tsd) → n = m) (tsd : String) :
    ∃ a b, (observed lib).exec (p, c) [.poll, .expire] = some a ∧
      (observed lib).step a (.waitDone none tsd) = some b ∧
      ¬ NamesConnection lib a (.waitDone none tsd) b := by
  have hlive : 0 < p.session.keepAliveTimer.live := h.timer
  have hbusy : p.outstanding ≠ 0 := by
    simp only [SteadyTimer.live, outstanding, SteadyTimer.waits] at hlive ⊢
    omega
  have hpoll : p.poll.io = .running := by simp [poll, h.going, hbusy]
  let q : SessionProcess :=
    { p.poll with session.keepAliveTimer := p.session.keepAliveTimer.expire }
  have ha : (observed lib).exec (p, c) [.poll, .expire] = some (q, c) := by
    have hpolled : p.step lib .poll = some p.poll := by simp [step, h.handling]
    exact EventSystem.exec_cons_eq_some.mpr ⟨(p.poll, c), observed_step.mpr ⟨hpolled, rfl⟩,
      EventSystem.exec_cons_eq_some.mpr ⟨(q, c), observed_step.mpr ⟨rfl, rfl⟩, rfl⟩⟩
  obtain ⟨timer, ht⟩ : ∃ timer, q.session.keepAliveTimer.take false = some timer := by
    apply SteadyTimer.take_false_isSome
    show 0 < p.session.keepAliveTimer.expired + p.session.keepAliveTimer.pending
    simp only [SteadyTimer.live] at hlive
    omega
  have hb : q.step lib (.waitDone none tsd) = some (q.onWait lib timer tsd none).handled := by
    have hrun : q.io = .running ∧ q.stopped = false := ⟨hpoll, h.going⟩
    simp [step, hrun, handler, ht]
  refine ⟨(q, c), (_, c), ha, observed_step.mpr ⟨hb, rfl⟩, fun hnames => ?_⟩
  obtain ⟨-, hsent⟩ := wait_sends hb
  have hno : ¬ (q.session.sessionId = -1 ∨ q.ws.connected = false) := by
    have hc : q.ws.connected = true := h.connected
    rw [not_or, Bool.not_eq_false]
    exact ⟨h.session, hc⟩
  rw [if_neg hno] at hsent
  obtain ⟨n, hn, htext⟩ := hnames tsd _ rfl hsent _ (List.mem_singleton_self _)
  have hsame : q.session.sessionId = n := hdump _ _ _ htext
  exact h.foreign (hsame ▸ hn)

/-- Where a step is not fresh, the timer has only to expire for a keep-alive that
names no session of its connection. -/
theorem stale_keepAlive {e : Event} (he : (observed lib).step x e = some y)
    (hg : ¬ FreshConnection lib x e) (hdump : ∀ n m tsd,
      lib.dump (keepaliveMsg n tsd) = lib.dump (keepaliveMsg m tsd) → n = m) (tsd : String) :
    ∃ a b, (observed lib).exec y [.poll, .expire] = some a ∧
      (observed lib).step a (.waitDone none tsd) = some b ∧
      ¬ NamesConnection lib a (.waitDone none tsd) b := by
  cases hh : e.handshakes with
  | true =>
    obtain ⟨tsd', rfl⟩ := handshakes_eq_true hh
    exact (stale_handshake he hg).sends hdump tsd
  | false =>
    cases ha : answeredBy lib x.1 e with
    | none => exact absurd ⟨by simp only [hh, Bool.false_eq_true, false_implies], by simp [ha]⟩ hg
    | some answer =>
      obtain ⟨i, rfl⟩ := answered_isRead ha
      exact (stale_answer he hg).sends hdump tsd

end WebrtcNativeDemo.SessionProcess
