import WebrtcNativeDemo.SessionProcess
import WebrtcNativeDemo.SessionRouting
import WebrtcNativeDemo.TransportConnect

/-!
# Keep-alive after Destory

`Destory` cancels the pending wait and asks for the close of an open stream. Three
things are out of its reach: a wait that has expired already, a connection attempt
under way, and the answer to a create request that is still awaited. Where none of
the three is there, no later handler arms the timer.
-/

namespace WebrtcNativeDemo.SessionProcess

open WebsocketTransport (NoAttempt Call)

variable {F : Type} {lib : Nlohmann F} {p p' : SessionProcess}

def armed (h : List JanusSession.Output) : List JanusSession.Output :=
  h.filter fun o => o = .keepAlive ∨ o = .doKeepAlive

def Arms (p p' : SessionProcess) : Prop := armed p'.session.hist ≠ armed p.session.hist

theorem Arms.of_eq {o : JanusSession.Output} (h : armed p.session.hist = [])
    (h' : armed p'.session.hist = [o]) : Arms p p' := by
  rw [Arms, h, h']
  exact List.cons_ne_nil o []

/-- Nothing is left that could lead to a call of `KeepAlive`. -/
structure Stilled (p : SessionProcess) : Prop where
  timer : p.session.keepAliveTimer.live = 0
  attempt : NoAttempt p.ws
  answer : p.ws.reads = [] ∨ p.session.responseCallbackMap = ∅

/-- What `Destory` has to find: no expired wait, no attempt, no awaited answer. -/
structure Quiet (p : SessionProcess) : Prop where
  timer : p.session.keepAliveTimer.expired = 0
  attempt : NoAttempt p.ws
  answer : p.ws.reads = [] ∨ p.session.responseCallbackMap = ∅

def IoThread.ended : IoThread → Bool
  | .returned | .terminated _ => true
  | _ => false

theorem stilled_transport {e : WebsocketTransport.Event} {ws : WebsocketTransport}
    (h : NoAttempt p.ws) (ha : p.ws.reads = [] ∨ p.session.responseCallbackMap = ∅)
    (he : p.ws.step e = some ws) (hc : Call.connect ∉ e.callsMade) :
    NoAttempt ws ∧ (ws.reads = [] ∨ p.session.responseCallbackMap = ∅) := by
  refine ⟨WebsocketTransport.noAttempt_step he hc h, ?_⟩
  rcases ha with hreads | hmap
  · left
    rcases WebsocketTransport.reads_length_step he with ⟨cs, rfl, -⟩ | ⟨-, hlen⟩ |
      ⟨i, ec, cs, -, -, hlen⟩
    · obtain ⟨hh, -⟩ := WebsocketTransport.step_handshaken.mp he
      have hidle := h.idle
      simp only [WebsocketTransport.attempts] at hidle
      omega
    · rw [hreads] at hlen
      exact List.eq_nil_of_length_eq_zero hlen
    · rw [hreads] at hlen
      exact List.eq_nil_of_length_eq_zero (Nat.le_zero.mp hlen)
  · exact Or.inr hmap

theorem stilled_handler {e : Event} (he : p.handler lib e = some p') (h : Stilled p) :
    Stilled p' ∧ armed p'.session.hist = armed p.session.hist := by
  cases e with
  | completion c =>
    obtain ⟨ws, hws, rfl⟩ := Option.map_eq_some_iff.mp he
    have hc : Call.connect ∉ c.event.callsMade := by
      cases c <;> simp [Completion.event, WebsocketTransport.Event.callsMade]
    obtain ⟨hatt, hans⟩ := stilled_transport h.attempt h.answer hws hc
    exact ⟨⟨h.timer, hatt, hans⟩, rfl⟩
  | handshaken ec tsd =>
    have hidle := h.attempt.idle
    simp only [WebsocketTransport.attempts] at hidle
    have hh : p.ws.handshakes = 0 := by omega
    simp [handler, hh] at he
  | readDone i ec =>
    obtain ⟨r, hr, rfl⟩ := Option.map_eq_some_iff.mp he
    obtain ⟨hatt, hans⟩ := stilled_transport h.attempt h.answer
      (WebsocketTransport.step_readDone.mpr ⟨r, hr, rfl⟩)
      (e := .readDone i ec []) (by simp [WebsocketTransport.Event.callsMade])
    cases ec with
    | some ec => exact ⟨⟨h.timer, hatt, hans⟩, rfl⟩
    | none =>
      have hmap : p.session.responseCallbackMap = ∅ := by
        apply h.answer.resolve_left
        intro hnil
        simp [hnil] at hr
      have hsession : (p.session.onMsg lib (p.ws.readCompletes i r none).buffer).1 =
          p.session.output (.received (p.ws.readCompletes i r none).buffer) := by
        apply JanusSession.onMsg_unregistered
        intro tsd _ _ hmem
        simp [hmap] at hmem
      have harmed : armed (p.session.output
          (.received (p.ws.readCompletes i r none).buffer)).hist = armed p.session.hist := by
        simp [armed, JanusSession.output]
      simp only [onRead]
      cases hret : (p.session.onMsg lib (p.ws.readCompletes i r none).buffer).2 with
      | ok u => exact ⟨⟨by rw [hsession]; exact h.timer, hatt, by rw [hsession]; exact hans⟩,
          by rw [hsession]; exact harmed⟩
      | error fault =>
        exact ⟨⟨by rw [hsession]; exact h.timer, ⟨h.attempt.idle, h.attempt.none_entered⟩,
          by rw [hsession]; exact Or.inr hmap⟩, by rw [hsession]; exact harmed⟩
  | waitDone ec tsd =>
    obtain ⟨timer, ht, rfl⟩ := Option.map_eq_some_iff.mp he
    obtain ⟨herr, hlive⟩ := SteadyTimer.take_live ht h.timer
    cases ec with
    | none => cases herr
    | some ec => exact ⟨⟨hlive, h.attempt, h.answer⟩, rfl⟩
  | init | destory | destroy | disconnect | leave | stop | poll | expire => cases he

theorem Stilled.of_eq (h : Stilled p)
    (htimer : p'.session.keepAliveTimer.live = p.session.keepAliveTimer.live)
    (hattempts : p'.ws.attempts = p.ws.attempts)
    (hentered : Call.connect ∈ p'.ws.entered → Call.connect ∈ p.ws.entered)
    (hreads : p'.ws.reads = p.ws.reads)
    (hmap : p'.session.responseCallbackMap = p.session.responseCallbackMap) : Stilled p' := by
  refine ⟨htimer.trans h.timer, ⟨hattempts.trans h.attempt.idle, ?_⟩, ?_⟩
  · exact fun hmem => h.attempt.none_entered (hentered hmem)
  · rw [hreads, hmap]
    exact h.answer

theorem stilled_step {e : Event} (he : p.step lib e = some p') (h : Stilled p)
    (hinit : e ≠ .init) : Stilled p' ∧ ¬ Arms p p' := by
  cases step_moves he with
  | init => exact absurd rfl hinit
  | destory | destroy =>
    have hlive : p.session.keepAliveTimer.cancel.live = p.session.keepAliveTimer.live :=
      (SteadyTimer.cancel_idle h.timer).trans h.timer.symm
    exact ⟨h.of_eq hlive rfl id rfl rfl, fun harms => harms rfl⟩
  | disconnect =>
    simp only [disconnect]
    split_ifs
    · exact ⟨h.of_eq rfl rfl (by simp) rfl rfl, fun harms => harms rfl⟩
    · exact ⟨h.of_eq rfl rfl id rfl rfl, fun harms => harms rfl⟩
  | leave hws =>
    obtain ⟨hatt, hans⟩ := stilled_transport h.attempt h.answer hws
      (by simp [WebsocketTransport.Event.callsMade])
    exact ⟨⟨h.timer, hatt, hans⟩, fun harms => harms rfl⟩
  | stop => exact ⟨h.of_eq rfl rfl id rfl rfl, fun harms => harms rfl⟩
  | poll hio => exact ⟨h.of_eq rfl rfl id rfl rfl, fun harms => harms rfl⟩
  | expire => exact ⟨h.of_eq (SteadyTimer.expire_live _) rfl id rfl rfl, fun harms => harms rfl⟩
  | handler hrun hq =>
    obtain ⟨hstill, hsame⟩ := stilled_handler hq h
    exact ⟨hstill.of_eq rfl rfl id rfl rfl, fun harms => harms hsame⟩

theorem ended_step {e : Event} (he : p.step lib e = some p') (h : p.io.ended = true) :
    p'.io.ended = true ∧ ¬ Arms p p' := by
  cases step_moves he with
  | init =>
    simp only [init]
    split_ifs <;> exact ⟨h, fun harms => harms rfl⟩
  | disconnect =>
    simp only [disconnect]
    split_ifs <;> exact ⟨h, fun harms => harms rfl⟩
  | destory | destroy | leave hws | stop | expire => exact ⟨h, fun harms => harms rfl⟩
  | poll hio => rcases hio with hio | hio | hio <;> simp [hio, IoThread.ended] at h
  | handler hrun hq => simp [hrun, IoThread.ended] at h

def Event.Destories : Event → Prop
  | .destory | .destroy => True
  | _ => False

theorem stilled_destory {e : Event} (he : p.step lib e = some p') (hd : e.Destories)
    (h : Quiet p) : Stilled p' := by
  have hlive : p.session.keepAliveTimer.cancel.live = 0 :=
    (SteadyTimer.cancel_live _).trans h.timer
  cases step_moves he with
  | destory | destroy => exact ⟨hlive, ⟨h.attempt.idle, h.attempt.none_entered⟩, h.answer⟩
  | init | disconnect | leave hws | stop | poll hio | expire => cases hd
  | @handler e q hrun hq =>
    cases e with
    | destory | destroy => cases hq
    | init | disconnect | leave | stop | poll | expire | completion c | handshaken ec tsd
    | readDone i ec | waitDone ec tsd => cases hd

/-- Called on a quiet process, or after the end of the io thread, `Destory()` stops the
keep-alive: until the next `Init()` no step calls `KeepAlive` or `DoKeepAlive`. -/
theorem destory_stops_keepAlive {e : Event} (he : p.step lib e = some p') (hd : e.Destories)
    (h : Quiet p ∨ p.io.ended = true) (es : List Event) (hes : .init ∉ es) :
    ∀ a f b, (system lib).Takes p' es a f b → ¬ Arms a b := by
  intro a f b hab
  rcases h with h | h
  · have ha : Stilled a := by
      apply EventSystem.visits_invariant (stilled_destory he hd h) _ a hab.visits_left
      intro a e b he hab ha
      exact (stilled_step hab ha (fun hi => hes (hi ▸ he))).1
    exact (stilled_step hab.step ha (fun hi => hes (hi ▸ hab.mem))).2
  · have ha : a.io.ended = true := by
      apply EventSystem.visits_invariant (I := fun p : SessionProcess => p.io.ended = true)
        (ended_step he h).1 _ a hab.visits_left
      intro a e b _ hab ha
      exact (ended_step hab ha).1
    exact (ended_step hab.step ha).2

def answering : List Event :=
  [.completion .runPosted, .poll, .completion (.writeDone 0 none), .poll,
    .completion (.frame 0 JanusSession.successText), .poll, .readDone 0 none]

theorem destory_stops_keepAlive_answered : ∃ p p',
    (system JanusSession.exampleLib).exec (create "127.0.0.1" 8188) (opening "a" ++ answering) =
      some p ∧
    p.session.keepAliveTimer.pending = 1 ∧ p.step JanusSession.exampleLib .destory = some p' ∧
    ∀ a f b, (system JanusSession.exampleLib).Takes p' [.disconnect, .leave, .poll] a f b →
      ¬ Arms a b := by
  obtain ⟨p, hp, ho, hd, hpending, hexpired, hattempts, hentered, hmap⟩ : ∃ p,
      (system JanusSession.exampleLib).exec (create "127.0.0.1" 8188) (opening "a" ++ answering) =
        some p ∧ p.owner = .idle ∧ p.destroying = false ∧ p.session.keepAliveTimer.pending = 1 ∧
      p.session.keepAliveTimer.expired = 0 ∧ p.ws.attempts = 0 ∧ p.ws.entered = [] ∧
      p.session.responseCallbackMap = ∅ := ⟨_, rfl, rfl, rfl, rfl, rfl, rfl, rfl, rfl⟩
  have hdest : p.step JanusSession.exampleLib .destory = some p.destory := by simp [step, ho, hd]
  exact ⟨p, p.destory, hp, hpending, hdest, destory_stops_keepAlive hdest trivial
    (Or.inl ⟨hexpired, ⟨hattempts, by simp [hentered]⟩, Or.inr hmap⟩) _ (by simp)⟩

/-- `Destory()` returns while the name is being resolved, and the attempt goes on to
the answer that arms the timer. -/
theorem keepAlive_after_destory : ∃ p a b,
    (system JanusSession.exampleLib).exec (create "127.0.0.1" 8188)
      [.init, .leave, .poll, .destory, .disconnect] = some p ∧ p.owner = .idle ∧
    (system JanusSession.exampleLib).exec p ([.completion (.resolved none), .poll,
      .completion (.tcpConnected none), .poll, .handshaken none "a", .poll,
      .completion .runPosted, .poll, .completion (.writeDone 0 none), .poll,
      .completion (.frame 0 JanusSession.successText), .poll]) = some a ∧
    a.step JanusSession.exampleLib (.readDone 0 none) = some b ∧
    Arms a b ∧ b.session.keepAliveTimer.pending = 1 :=
  ⟨_, _, _, rfl, rfl, rfl, rfl, .of_eq (o := .keepAlive) rfl rfl, rfl⟩

theorem onWait_armed (lib : Nlohmann F) (s : JanusSession) (tsd : String) :
    armed (s.onWait lib tsd none).1.hist = armed s.hist ++ [.doKeepAlive, .keepAlive] := by
  simp only [JanusSession.onWait, JanusSession.doKeepAlive]
  split_ifs <;> simp [armed, JanusSession.keepAlive, JanusSession.output]

/-- A wait whose handler is queued when `Destory()` is called runs behind it. -/
theorem expired_wait_arms (ho : p.owner = .idle) (hd : p.destroying = false)
    (hr : p.io = .running) (hs : p.stopped = false)
    (hx : p.session.keepAliveTimer.expired ≠ 0) (tsd : String) :
    ∃ es a b, .init ∉ es ∧ (system lib).exec p (.destory :: es) = some a ∧ a.owner = .idle ∧
      a.step lib (.waitDone none tsd) = some b ∧ Arms a b := by
  have harms : ∀ a : SessionProcess, a.io = .running → a.stopped = false →
      a.session.keepAliveTimer.expired ≠ 0 →
      ∃ b, a.step lib (.waitDone none tsd) = some b ∧ Arms a b := by
    intro a hr hs hx
    obtain ⟨timer, ht⟩ : ∃ timer, a.session.keepAliveTimer.take false = some timer := by
      simp [SteadyTimer.take, hx]
    refine ⟨(a.onWait lib timer tsd none).handled, ?_, ?_⟩
    · simp [step, handler, hr, hs, ht]
    · intro h
      have harmed := onWait_armed lib { a.session with keepAliveTimer := timer } tsd
      have hsame := h.symm.trans harmed
      simpa using congrArg List.length hsame
  have hdest : p.step lib .destory = some p.destory := by simp [step, ho, hd]
  by_cases hopen : p.ws.isOpen = true
  · obtain ⟨q, hq, hqo, hqs, hqws⟩ : ∃ q, p.destory.step lib .disconnect = some q ∧
        q.owner = .disconnecting ∧ q = { p.destory with ws := q.ws, owner := q.owner } ∧
        q.ws.entered = p.ws.entered ++ [.disconnect] := by
      refine ⟨p.destory.disconnect, by simp [step, destory], ?_⟩
      simp [disconnect, destory, hopen]
    obtain ⟨c, hc⟩ : ∃ c, q.ws.entered[0]? = some c := by
      rw [hqws]
      cases p.ws.entered <;> simp
    obtain ⟨ws, hws⟩ : ∃ ws, q.ws.step (.leave 0) = some ws :=
      ⟨_, WebsocketTransport.step_leave.mpr ⟨c, hc, rfl⟩⟩
    have hleave : q.step lib .leave = some { q with ws, owner := .idle } := by
      simp [step, leave, hqo, hws]
    obtain ⟨b, hb, harm⟩ := harms { q with ws, owner := .idle }
      (by rw [hqs]; exact hr) (by rw [hqs]; exact hs) (by rw [hqs]; exact hx)
    refine ⟨[.disconnect, .leave], _, b, by simp, ?_, rfl, hb, harm⟩
    exact EventSystem.exec_cons_eq_some.mpr ⟨_, hdest, EventSystem.exec_cons_eq_some.mpr
      ⟨q, hq, EventSystem.exec_cons_eq_some.mpr ⟨_, hleave, rfl⟩⟩⟩
  · have hguard : p.destory.step lib .disconnect = some { p.destory with owner := .idle } := by
      simp [step, disconnect, destory, hopen]
    obtain ⟨b, hb, harm⟩ := harms { p.destory with owner := .idle } hr hs hx
    refine ⟨[.disconnect], _, b, by simp, ?_, rfl, hb, harm⟩
    exact EventSystem.exec_cons_eq_some.mpr ⟨_, hdest, EventSystem.exec_cons_eq_some.mpr
      ⟨_, hguard, rfl⟩⟩

end WebrtcNativeDemo.SessionProcess
