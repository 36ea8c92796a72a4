import WebrtcNativeDemo.SessionProcess
import WebrtcNativeDemo.SessionRouting

/-!
# The parts of a running session

As long as no exception has ended the io thread, the transport of a session is in a
state that the transport alone can reach, and the session itself in one that its
handlers lead to from construction, the timer apart. What is proved of the two alone
holds in the process.
-/

namespace WebrtcNativeDemo

namespace WebsocketTransport

variable {t t' : WebsocketTransport}

theorem reachable_call (h : system.Reachable t) (c : Call) : system.Reachable (t.call c) := by
  rw [call_eq]
  split_ifs with hpass
  · have henter : system.step t (.enter c) = some { t with entered := t.entered ++ [c] } := by
      show some _ = _
      rw [if_pos hpass]
    have hleave : system.step { t with entered := t.entered ++ [c] } (.leave t.entered.length) =
        some (t.act c) := by
      apply step_leave.mpr
      refine ⟨c, by simp, ?_⟩
      rw [List.eraseIdx_append_of_length_le (Nat.le_refl _)]
      simp
    exact (h.step henter).step hleave
  · have henter : system.step t (.enter c) = some (t.refuse c) := by
      show some _ = _
      rw [if_neg hpass]
    exact h.step henter

theorem reachable_calls (h : system.Reachable t) (cs : List Call) :
    system.Reachable (t.calls cs) :=
  calls_preserve (I := system.Reachable) (fun _ c ht => reachable_call ht c) cs h

end WebsocketTransport

namespace SessionProcess

variable {F : Type} {lib : Nlohmann F} {p p' : SessionProcess}

theorem step_terminated {e : Event} (he : p.step lib e = some p') {fault : Fault}
    (h : p.io = .terminated fault) : p'.io = .terminated fault := by
  cases step_moves he with
  | init =>
    simp only [init]
    split_ifs <;> exact h
  | disconnect =>
    simp only [disconnect]
    split_ifs <;> exact h
  | destory | destroy | leave hws | stop | expire => exact h
  | poll hio => simp [h] at hio
  | handler hrun hq => simp [h] at hrun

theorem reachable_ws (h : (system lib).Reachable p) :
    (∀ fault, p.io ≠ .terminated fault) → WebsocketTransport.system.Reachable p.ws := by
  apply h.invariant (I := fun p : SessionProcess =>
    (∀ fault, p.io ≠ .terminated fault) → WebsocketTransport.system.Reachable p.ws)
  · intro p hp _
    obtain ⟨host, port, rfl⟩ := hp
    exact .of_start (.setMsgCallback (.setConnectCallback (.create _ _ _)))
  · intro a e b he ha hio
    have hreach : WebsocketTransport.system.Reachable a.ws :=
      ha fun fault hf => hio fault (step_terminated he hf)
    cases transport_moves he with
    | kept hws => rwa [hws]
    | step cs hf hws => exact hreach.step hws
    | calls cs hws =>
      rw [hws]
      exact WebsocketTransport.reachable_calls hreach cs
    | thrown i r msg fault hws hterm => exact absurd hterm (hio fault)

end SessionProcess

/-! ### The session -/

namespace JanusSession

variable {F : Type} {lib : Nlohmann F} {s : JanusSession}

/-- The session without its timer, which the owner's thread and the clock change too. -/
def untimed (s : JanusSession) : JanusSession := { s with keepAliveTimer := {} }

theorem createSucceeded_untimed (s : JanusSession) (timer : SteadyTimer) (message : Json F) :
    ({ s with keepAliveTimer := timer }.createSucceeded lib message).map untimed =
      (s.createSucceeded lib message).map untimed := by
  simp only [createSucceeded]
  cases message.subscript "data" with
  | error fault => rfl
  | ok data =>
    simp only [bind, Except.bind]
    cases data.subscript "id" with
    | error fault => rfl
    | ok id =>
      simp only
      cases id.getInt64 lib <;> rfl

theorem createFailed_untimed (s : JanusSession) (timer : SteadyTimer) (message : Json F) :
    ({ s with keepAliveTimer := timer }.createFailed lib message).map untimed =
      (s.createFailed lib message).map untimed := by
  simp only [createFailed]
  cases message.subscript "error" with
  | error fault => rfl
  | ok error =>
    simp only [bind, Except.bind]
    cases error.subscript "code" with
    | error fault => rfl
    | ok code =>
      simp only
      cases code.getInt32 lib with
      | error fault => rfl
      | ok n =>
        simp only
        cases error.subscript "reason" with
        | error fault => rfl
        | ok reason =>
          simp only
          cases reason.getString <;> rfl

theorem onCreateResponse_untimed (lib : Nlohmann F) (s : JanusSession) (timer : SteadyTimer)
    (message : Json F) :
    ({ s with keepAliveTimer := timer }.onCreateResponse lib message).map untimed =
      (s.onCreateResponse lib message).map untimed := by
  simp only [onCreateResponse]
  cases message.value "janus" "" with
  | error fault => rfl
  | ok success =>
    simp only [bind, Except.bind]
    split_ifs
    · exact createSucceeded_untimed s timer message
    · exact createFailed_untimed s timer message
    · rfl

theorem runCallback_untimed (s : JanusSession) (timer : SteadyTimer) (tsd : String)
    (message : Json F) (callback : OnResponseCallback) :
    untimed (runCallback lib { s with keepAliveTimer := timer } tsd message callback).1 =
      untimed (runCallback lib s tsd message callback).1 := by
  cases callback with
  | empty => rfl
  | create =>
    have h := onCreateResponse_untimed lib (s.output (.ran tsd)) timer message
    have hout : ({ s with keepAliveTimer := timer }.output (.ran tsd)) =
        { s.output (.ran tsd) with keepAliveTimer := timer } := rfl
    simp only [runCallback, hout]
    cases hr : { s.output (.ran tsd) with keepAliveTimer := timer }.onCreateResponse lib
        message with
    | error fault =>
      cases hs : (s.output (.ran tsd)).onCreateResponse lib message with
      | error fault' => rfl
      | ok s' => simp [hr, hs, Except.map] at h
    | ok s₁ =>
      cases hs : (s.output (.ran tsd)).onCreateResponse lib message with
      | error fault' => simp [hr, hs, Except.map] at h
      | ok s₂ => simpa [hr, hs, Except.map] using h

theorem handle_untimed (s : JanusSession) (timer : SteadyTimer) (e : Event) :
    untimed (handle lib { s with keepAliveTimer := timer } e) = untimed (handle lib s e) := by
  cases e with
  | onConnect tsd => rfl
  | onWait ec tsd =>
    cases ec with
    | some ec => rfl
    | none =>
      by_cases h : s.sessionId = -1 <;>
        simp [handle, onWait, doKeepAlive, output, keepAlive, untimed, h]
  | onMsg msg =>
    simp only [handle, onMsg, output]
    cases lib.parse msg with
    | none => rfl
    | some message =>
      simp only
      cases message.value "transaction" "" with
      | error fault => rfl
      | ok tsd =>
        simp only
        split_ifs
        · rfl
        · cases s.responseCallbackMap.lookup tsd with
          | none => rfl
          | some callback =>
            exact runCallback_untimed { s.output (.received msg) with
              responseCallbackMap := s.responseCallbackMap.erase tsd } timer tsd message callback

end JanusSession

namespace SessionProcess

open JanusSession (untimed handle run)

variable {F : Type} {lib : Nlohmann F} {p p' : SessionProcess}

theorem step_session {e : Event} (he : p.step lib e = some p') :
    untimed p'.session = untimed p.session ∨
      ∃ f, untimed p'.session = untimed (handle lib p.session f) := by
  cases session_moves he with
  | kept hk hs =>
    rw [hs]
    exact Or.inl rfl
  | cancelled hd hs =>
    rw [hs]
    exact Or.inl rfl
  | expired hs =>
    rw [hs]
    exact Or.inl rfl
  | @connected tsd hs =>
    rw [hs]
    exact Or.inr ⟨.onConnect tsd, rfl⟩
  | received hr hs =>
    rw [hs]
    exact Or.inr ⟨.onMsg _, rfl⟩
  | @waited ec tsd timer ht hs =>
    rw [hs]
    exact Or.inr ⟨.onWait ec tsd, JanusSession.handle_untimed p.session timer (.onWait ec tsd)⟩

/-- The session of a running process is what its handlers make of a new one. -/
theorem reachable_session (h : (system lib).Reachable p) :
    ∃ es, untimed p.session = untimed (run lib JanusSession.create es) := by
  apply h.invariant (I := fun p : SessionProcess =>
    ∃ es, untimed p.session = untimed (run lib JanusSession.create es))
  · intro p hp
    obtain ⟨host, port, rfl⟩ := hp
    exact ⟨[], rfl⟩
  · intro a e b he ha
    obtain ⟨es, hes⟩ := ha
    rcases step_session he with hb | ⟨f, hb⟩
    · exact ⟨es, hb.trans hes⟩
    · refine ⟨es ++ [f], ?_⟩
      rw [JanusSession.run_append_singleton]
      calc untimed b.session = untimed (handle lib a.session f) := hb
        _ = untimed (handle lib (untimed a.session) f) :=
          (JanusSession.handle_untimed a.session {} f).symm
        _ = untimed (handle lib (run lib JanusSession.create es) f) := by
          rw [hes]
          exact JanusSession.handle_untimed _ {} f

end SessionProcess
end WebrtcNativeDemo
