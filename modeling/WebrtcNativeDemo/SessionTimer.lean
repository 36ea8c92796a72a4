import WebrtcNativeDemo.SessionKeepAlive

/-!
# The keep-alive loop

What the steps of a process do to the timer of its session. A success response and a
wait that ends without an error arm it anew, and only `Destory` cancels a wait without
another in its place: from the first success on the loop neither dies nor multiplies.
-/

namespace WebrtcNativeDemo

namespace JanusSession

variable {F : Type} (lib : Nlohmann F)

/-- The number under `data.id`, if the create callback can read it. -/
def successId (message : Json F) : Option Int64 := do
  let data ← message.find "data"
  let id ← data.find "id"
  (id.getInt64 lib).toOption

/-- The transaction and the identifier of a message that `OnMsg` takes for the success
of an outstanding create request. -/
def answered (s : JanusSession) (msg : Bytes) : Option (String × Int64) := do
  let message ← lib.parse msg
  let tsd ← transaction lib msg
  let janus ← (message.value "janus" "").toOption
  let n ← successId lib message
  if tsd ≠ "" ∧ s.responseCallbackMap.lookup tsd = some .create ∧ janus = "success" then
    some (tsd, n)
  else none

variable {lib} {s s' : JanusSession} {message : Json F} {msg : Bytes}

theorem toOption_eq_some {ε α : Type} {x : Except ε α} {a : α} :
    x.toOption = some a ↔ x = .ok a := by
  cases x <;> simp [Except.toOption]

theorem successId_eq_some {n : Int64} :
    successId lib message = some n ↔ SuccessId lib message n := by
  simp only [successId, SuccessId, Option.bind_eq_bind, Option.bind_eq_some_iff, toOption_eq_some]
  constructor
  · intro h
    obtain ⟨data, hdata, id, hid, hn⟩ := h
    exact ⟨data, id, hdata, hid, hn⟩
  · intro h
    obtain ⟨data, id, hdata, hid, hn⟩ := h
    exact ⟨data, hdata, id, hid, hn⟩

theorem answered_eq_some {tsd : String} {n : Int64} : answered lib s msg = some (tsd, n) ↔
    ∃ message, lib.parse msg = some message ∧ message.find "transaction" = some (.string tsd) ∧
      tsd ≠ "" ∧ s.responseCallbackMap.lookup tsd = some .create ∧
      message.value "janus" "" = .ok "success" ∧ SuccessId lib message n := by
  simp only [answered, Option.bind_eq_bind, Option.bind_eq_some_iff, toOption_eq_some,
    successId_eq_some, Option.ite_none_right_eq_some, Option.some.injEq, Prod.mk.injEq]
  constructor
  · rintro ⟨message, hp, k, htr, janus, hj, m, hm, ⟨hne, hcb, rfl⟩, rfl, rfl⟩
    obtain ⟨message', hp', hf⟩ := transaction_eq_some.mp htr
    obtain rfl : message = message' := Option.some.inj (hp.symm.trans hp')
    exact ⟨message, hp, hf, hne, hcb, hj, hm⟩
  · rintro ⟨message, hp, hf, hne, hcb, hj, hm⟩
    exact ⟨message, hp, tsd, transaction_eq_some.mpr ⟨message, hp, hf⟩, "success", hj, n, hm,
      ⟨hne, hcb, rfl⟩, rfl, rfl⟩

theorem onMsg_answered {tsd : String} {n : Int64} (h : answered lib s msg = some (tsd, n)) :
    (s.onMsg lib msg).1.sessionId = n ∧ (s.onMsg lib msg).1.keepAliveTimer =
      s.keepAliveTimer.rearm keepaliveIntervalSeconds ∧ (s.onMsg lib msg).2 = .ok () := by
  obtain ⟨message, hp, hf, hne, hcb, hj, hn⟩ := answered_eq_some.mp h
  have hrun (s : JanusSession) : s.onCreateResponse lib message =
      .ok ({ s with sessionId := n }.output
        (.log (">>>>> session_id:" ++ toString n))).keepAlive :=
    onCreateResponse_ok.mpr ⟨"success", hj, Or.inl ⟨rfl, createSucceeded_ok.mpr ⟨n, hn, rfl⟩⟩⟩
  simp only [onMsg_registered hp hf hne hcb, runCallback, hrun]
  exact ⟨rfl, rfl, trivial⟩

theorem onCreateResponse_unanswered (h : s.onCreateResponse lib message = .ok s')
    (hno : message.value "janus" "" = .ok "success" → successId lib message = none) :
    s'.sessionId = s.sessionId ∧ s'.keepAliveTimer = s.keepAliveTimer := by
  obtain ⟨success, hv, ⟨rfl, hs⟩ | ⟨-, hf⟩ | ⟨-, -, rfl⟩⟩ := onCreateResponse_ok.mp h
  · obtain ⟨n, hn, -⟩ := createSucceeded_ok.mp hs
    have hnone := hno hv
    rw [successId_eq_some.mpr hn] at hnone
    cases hnone
  · obtain ⟨code, reason, -, rfl⟩ := createFailed_ok.mp hf
    exact ⟨rfl, rfl⟩
  · exact ⟨rfl, rfl⟩

theorem onMsg_unanswered (h : answered lib s msg = none) :
    (s.onMsg lib msg).1.sessionId = s.sessionId ∧
      (s.onMsg lib msg).1.keepAliveTimer = s.keepAliveTimer := by
  by_cases hreg : ∃ tsd, transaction lib msg = some tsd ∧ tsd ≠ "" ∧ tsd ∈ s.responseCallbackMap
  · obtain ⟨tsd, htr, hne, hmem⟩ := hreg
    obtain ⟨message, hp, hf⟩ := transaction_eq_some.mp htr
    obtain ⟨callback, hcb⟩ := Option.isSome_iff_exists.mp (AList.lookup_isSome.mpr hmem)
    rw [onMsg_registered hp hf hne hcb]
    cases callback with
    | empty => exact ⟨rfl, rfl⟩
    | create =>
      simp only [runCallback]
      generalize hs : ({ s.output (.received msg) with
        responseCallbackMap := s.responseCallbackMap.erase tsd }.output (.ran tsd)) = s₁
      have hsame : s₁.sessionId = s.sessionId ∧ s₁.keepAliveTimer = s.keepAliveTimer := by
        rw [← hs]
        exact ⟨rfl, rfl⟩
      cases hr : s₁.onCreateResponse lib message with
      | error fault => exact hsame
      | ok s' =>
        obtain ⟨hid, htimer⟩ := onCreateResponse_unanswered hr fun hj => by
          cases hn : successId lib message with
          | none => rfl
          | some n =>
            have hsome := answered_eq_some.mpr
              ⟨message, hp, hf, hne, hcb, hj, successId_eq_some.mp hn⟩
            rw [h] at hsome
            cases hsome
        exact ⟨hid.trans hsame.1, htimer.trans hsame.2⟩
  · rw [onMsg_unregistered fun tsd htr hne hmem => hreg ⟨tsd, htr, hne, hmem⟩]
    exact ⟨rfl, rfl⟩

theorem onWait_none (lib : Nlohmann F) (s : JanusSession) (tsd : String) :
    (s.onWait lib tsd none).1.keepAliveTimer =
        s.keepAliveTimer.rearm keepaliveIntervalSeconds ∧
      (s.onWait lib tsd none).1.hist.count .doKeepAlive = s.hist.count .doKeepAlive + 1 := by
  simp only [onWait, doKeepAlive]
  split_ifs <;> simp [keepAlive, SteadyTimer.rearm, output]

end JanusSession

namespace SessionProcess

variable {F : Type} {lib : Nlohmann F} {p p' q : SessionProcess}

/-- The create request that the event answers with success, and the identifier it gets. -/
def answeredBy (lib : Nlohmann F) (p : SessionProcess) : Event → Option (String × Int64)
  | .readDone i none => p.ws.reads[i]?.bind fun r =>
      p.session.answered lib (p.ws.readCompletes i r none).buffer
  | _ => none

def AnsweredIn (lib : Nlohmann F) (p : SessionProcess) (es : List Event) : Prop :=
  ∃ a e b, (system lib).Takes p es a e b ∧ (answeredBy lib a e).isSome

theorem step_loops {e : Event} (he : p.step lib e = some p') (hd : ¬ e.Destories) :
    p.session.keepAliveTimer.Loops p'.session.keepAliveTimer := by
  cases session_moves he with
  | kept hk hs =>
    rw [hs]
    exact .kept
  | cancelled hcancel hs => rcases hcancel with rfl | rfl <;> exact absurd trivial hd
  | expired hs =>
    rw [hs]
    exact .expired
  | connected hs =>
    rw [hs]
    exact .kept
  | @received i r hr hs =>
    rw [hs]
    cases ha : p.session.answered lib (p.ws.readCompletes i r none).buffer with
    | none =>
      rw [(JanusSession.onMsg_unanswered ha).2]
      exact .kept
    | some answer =>
      rw [(JanusSession.onMsg_answered ha).2.1]
      exact .rearmed _ _
  | @waited ec tsd timer ht hs =>
    rw [hs]
    cases ec with
    | some ec => exact .aborted ht
    | none =>
      rw [(JanusSession.onWait_none lib _ tsd).1]
      exact .rearmed _ _

theorem answered_isRead {e : Event} {answer : String × Int64}
    (ha : answeredBy lib p e = some answer) : ∃ i, e = .readDone i none := by
  cases e with
  | readDone i ec =>
    cases ec with
    | none => exact ⟨i, rfl⟩
    | some ec => cases ha
  | init | destory | destroy | disconnect | leave | stop | poll | expire | completion c
  | handshaken ec tsd | waitDone ec tsd => cases ha

theorem step_answered {e : Event} {tsd : String} {n : Int64} (he : p.step lib e = some p')
    (ha : answeredBy lib p e = some (tsd, n)) : p'.session.sessionId = n ∧
      p'.session.keepAliveTimer =
        p.session.keepAliveTimer.rearm JanusSession.keepaliveIntervalSeconds := by
  obtain ⟨i, rfl⟩ := answered_isRead ha
  cases session_moves he with
  | kept hk hs => cases hk
  | cancelled hd hs => rcases hd with hd | hd <;> cases hd
  | received hr hs =>
    simp only [answeredBy, hr, Option.bind_some] at ha
    obtain ⟨hid, htimer, -⟩ := JanusSession.onMsg_answered ha
    rw [hs]
    exact ⟨hid, htimer⟩

theorem step_wait {tsd : String} (he : p.step lib (.waitDone none tsd) = some p') :
    p'.session.hist.count .doKeepAlive = p.session.hist.count .doKeepAlive + 1 ∧
      p'.session.keepAliveTimer.pending = 1 := by
  cases session_moves he with
  | kept hk hs => cases hk
  | cancelled hd hs => rcases hd with hd | hd <;> cases hd
  | @waited _ _ timer ht hs =>
    obtain ⟨htimer, hcount⟩ :=
      JanusSession.onWait_none lib { p.session with keepAliveTimer := timer } tsd
    rw [hs, htimer]
    exact ⟨hcount, rfl⟩

theorem step_wait_error {ec tsd : String} (he : p.step lib (.waitDone (some ec) tsd) = some p') :
    p'.session.hist = p.session.hist := by
  cases session_moves he with
  | kept hk hs => cases hk
  | cancelled hd hs => rcases hd with hd | hd <;> cases hd
  | waited ht hs =>
    rw [hs]
    rfl

theorem live_of_answered {es : List Event} (hd : ∀ e ∈ es, ¬ e.Destories)
    (hq : (system lib).exec p es = some q) (ha : AnsweredIn lib p es) :
    0 < q.session.keepAliveTimer.live := by
  obtain ⟨a, e, b, hab, hsome⟩ := ha
  obtain ⟨⟨tsd, n⟩, hanswer⟩ := Option.isSome_iff_exists.mp hsome
  obtain ⟨pre, post, rfl, -, hpost⟩ := hab.split hq
  have hvisit : (system lib).Visits b post q := ⟨post, List.prefix_rfl, hpost⟩
  have hb : 0 < b.session.keepAliveTimer.live := by
    have hstep : a.step lib e = some b := hab.step
    rw [(step_answered hstep hanswer).2]
    exact SteadyTimer.rearm_live_pos _ _
  apply EventSystem.visits_invariant (I := fun p : SessionProcess =>
    0 < p.session.keepAliveTimer.live) hb _ q hvisit
  intro a e b he hab ha
  exact (step_loops hab (hd e (by simp [he]))).live_pos ha

theorem pending_le_one {es : List Event} (hp : Fresh p) (hd : ∀ e ∈ es, ¬ e.Destories)
    (hq : (system lib).exec p es = some q) : q.session.keepAliveTimer.pending ≤ 1 := by
  have hvisit : (system lib).Visits p es q := ⟨es, List.prefix_rfl, hq⟩
  obtain ⟨host, port, rfl⟩ := hp
  apply EventSystem.visits_invariant (I := fun p : SessionProcess =>
    p.session.keepAliveTimer.pending ≤ 1) (Nat.zero_le 1) _ q hvisit
  intro a e b he hab ha
  exact (step_loops hab (hd e he)).pending_le ha

/-- Without `Destory` the keep-alive loop neither dies nor multiplies. -/
theorem keepAlive_loop {es : List Event} (hp : Fresh p) (hd : ∀ e ∈ es, ¬ e.Destories)
    (hq : (system lib).exec p es = some q) :
    (AnsweredIn lib p es → 0 < q.session.keepAliveTimer.live) ∧
    q.session.keepAliveTimer.pending ≤ 1 ∧
    (∀ tsd q', q.step lib (.waitDone none tsd) = some q' →
      q'.session.hist.count .doKeepAlive = q.session.hist.count .doKeepAlive + 1 ∧
        q'.session.keepAliveTimer.pending = 1) ∧
    (∀ ec tsd q', q.step lib (.waitDone (some ec) tsd) = some q' →
      q'.session.hist = q.session.hist) :=
  ⟨live_of_answered hd hq, pending_le_one hp hd hq, fun _ _ => step_wait,
    fun _ _ _ => step_wait_error⟩

theorem keepAlive_loop_answered : ∃ q,
    (system JanusSession.exampleLib).exec (create "127.0.0.1" 8188) (opening "a" ++ answering) =
      some q ∧
    AnsweredIn JanusSession.exampleLib (create "127.0.0.1" 8188) (opening "a" ++ answering) ∧
    0 < q.session.keepAliveTimer.live := by
  obtain ⟨q, hq⟩ : ∃ q, (system JanusSession.exampleLib).exec (create "127.0.0.1" 8188)
      (opening "a" ++ answering) = some q := ⟨_, rfl⟩
  have ha : AnsweredIn JanusSession.exampleLib (create "127.0.0.1" 8188)
      (opening "a" ++ answering) := by
    obtain ⟨a, b, hpre, hstep, hanswer⟩ : ∃ a b,
        (system JanusSession.exampleLib).exec (create "127.0.0.1" 8188)
          (opening "a" ++ answering.dropLast) = some a ∧
        (system JanusSession.exampleLib).step a (.readDone 0 none) = some b ∧
        answeredBy JanusSession.exampleLib a (.readDone 0 none) = some ("a", 7) :=
      ⟨_, _, rfl, rfl, rfl⟩
    exact ⟨a, _, b, EventSystem.takes_last hpre hstep, by rw [hanswer]; rfl⟩
  refine ⟨q, hq, ha, (keepAlive_loop ⟨_, _, rfl⟩ ?_ hq).1 ha⟩
  simp [opening, answering, Event.Destories]

end SessionProcess
end WebrtcNativeDemo
