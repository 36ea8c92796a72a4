import WebrtcNativeDemo.SessionProcess
import WebrtcNativeDemo.SessionRouting

/-!
# Received messages

Which byte strings `OnMsg` survives. The message has to be an object, its members of
the types that are asked for, and the answer to a create request complete; on any
other the exception passes through `OnRead`, which then neither consumes the buffer
nor starts the next read.
-/

namespace WebrtcNativeDemo

namespace JanusSession

variable {F : Type} {lib : Nlohmann F} {s s' : JanusSession} {message : Json F} {msg : Bytes}

def StringMember (message : Json F) (key : String) : Prop :=
  ∀ v, message.find key = some v → v.isString = true

def NumericId (message : Json F) : Prop :=
  ∃ data id, message.find "data" = some data ∧ data.find "id" = some id ∧ id.isNumber = true

def CompleteError (message : Json F) : Prop :=
  ∃ error code reason, message.find "error" = some error ∧ error.find "code" = some code ∧
    (code.isNumber = true ∨ code.isBoolean = true) ∧ error.find "reason" = some reason ∧
    reason.isString = true

structure Answer (message : Json F) : Prop where
  janus : StringMember message "janus"
  success : message.find "janus" = some (.string "success") → NumericId message
  error : message.find "janus" = some (.string "error") → CompleteError message

/-- `OnMsg` asks nothing of the message that it does not have. -/
def Acceptable (lib : Nlohmann F) (s : JanusSession) (msg : Bytes) : Prop :=
  ∃ message, lib.parse msg = some message ∧ message.isObject = true ∧
    StringMember message "transaction" ∧
    ∀ tsd, message.find "transaction" = some (.string tsd) → tsd ≠ "" →
      s.responseCallbackMap.lookup tsd = some .create → Answer message

/-- Not a text of JSON, not an object, or with a member of the wrong type or without
one that its `janus` calls for. -/
def Malformed (lib : Nlohmann F) (msg : Bytes) : Prop :=
  ∀ message, lib.parse msg = some message → message.isObject = true →
    StringMember message "transaction" → ¬ Answer message

theorem successId_iff (lib : Nlohmann F) (message : Json F) :
    (∃ n, SuccessId lib message n) ↔ NumericId message := by
  constructor
  · intro h
    obtain ⟨n, data, id, hdata, hid, hn⟩ := h
    exact ⟨data, id, hdata, hid, (Json.getInt64_isOk lib id).mp ⟨n, hn⟩⟩
  · intro h
    obtain ⟨data, id, hdata, hid, hnum⟩ := h
    obtain ⟨n, hn⟩ := (Json.getInt64_isOk lib id).mpr hnum
    exact ⟨n, data, id, hdata, hid, hn⟩

theorem errorReason_iff (lib : Nlohmann F) (message : Json F) :
    (∃ code reason, ErrorReason lib message code reason) ↔ CompleteError message := by
  constructor
  · intro h
    obtain ⟨code, reason, error, c, r, he, hc, hcode, hr, hreason⟩ := h
    exact ⟨error, c, r, he, hc, (Json.getInt32_isOk lib c).mp ⟨code, hcode⟩, hr,
      (Json.getString_isOk r).mp ⟨reason, hreason⟩⟩
  · intro h
    obtain ⟨error, c, r, he, hc, hnum, hr, hstr⟩ := h
    obtain ⟨code, hcode⟩ := (Json.getInt32_isOk lib c).mpr hnum
    obtain ⟨reason, hreason⟩ := (Json.getString_isOk r).mpr hstr
    exact ⟨code, reason, error, c, r, he, hc, hcode, hr, hreason⟩

/-- The create callback returns on the answers to create requests, and throws on all
other objects. -/
theorem onCreateResponse_returns (lib : Nlohmann F) (s : JanusSession)
    (ho : message.isObject = true) :
    (∃ s', s.onCreateResponse lib message = .ok s') ↔ Answer message := by
  have hvalue : ∀ success, message.find "janus" = some (.string success) →
      message.value "janus" "" = .ok success :=
    fun success hf => Json.value_ok.mpr ⟨ho, Or.inl hf⟩
  constructor
  · intro h
    obtain ⟨s', h⟩ := h
    obtain ⟨success, hv, hcases⟩ := onCreateResponse_ok.mp h
    have hunique : ∀ t, message.find "janus" = some (.string t) → success = t := by
      intro t ht
      exact Except.ok.inj (hv.symm.trans (hvalue t ht))
    refine ⟨((Json.value_isOk message "janus" "").mp ⟨success, hv⟩).2, ?_, ?_⟩
    · intro hs
      obtain rfl := hunique _ hs
      rcases hcases with ⟨-, hok⟩ | ⟨hne, -⟩ | ⟨hne, -⟩
      · obtain ⟨n, hn, -⟩ := createSucceeded_ok.mp hok
        exact (successId_iff lib message).mp ⟨n, hn⟩
      · exact absurd hne (by decide)
      · exact absurd rfl hne
    · intro he
      obtain rfl := hunique _ he
      rcases hcases with ⟨hne, -⟩ | ⟨-, hok⟩ | ⟨-, hne, -⟩
      · exact absurd hne (by decide)
      · obtain ⟨code, reason, hr, -⟩ := createFailed_ok.mp hok
        exact (errorReason_iff lib message).mp ⟨code, reason, hr⟩
      · exact absurd rfl hne
  · intro h
    obtain ⟨success, hv⟩ := (Json.value_isOk message "janus" "").mpr ⟨ho, h.janus⟩
    have hfind : success ≠ "" → message.find "janus" = some (.string success) := by
      intro hne
      obtain ⟨-, hf | ⟨-, hnil⟩⟩ := Json.value_ok.mp hv
      · exact hf
      · exact absurd hnil.symm hne
    by_cases hs : success = "success"
    · obtain ⟨n, hn⟩ := (successId_iff lib message).mpr (h.success (hs ▸ hfind (by simp [hs])))
      exact ⟨_, onCreateResponse_ok.mpr ⟨success, hv, Or.inl
        ⟨hs, createSucceeded_ok.mpr ⟨n, hn, rfl⟩⟩⟩⟩
    · by_cases he : success = "error"
      · obtain ⟨code, reason, hr⟩ :=
          (errorReason_iff lib message).mpr (h.error (he ▸ hfind (by simp [he])))
        exact ⟨_, onCreateResponse_ok.mpr ⟨success, hv, Or.inr (Or.inl
          ⟨he, createFailed_ok.mpr ⟨code, reason, hr, rfl⟩⟩)⟩⟩
      · exact ⟨s, onCreateResponse_ok.mpr ⟨success, hv, Or.inr (Or.inr ⟨hs, he, rfl⟩)⟩⟩

theorem runCallback_returns (ho : message.isObject = true) (tsd : String)
    (callback : OnResponseCallback) :
    (runCallback lib s tsd message callback).2 = .ok () ↔
      (callback = .create → Answer message) := by
  cases callback with
  | empty => simp [runCallback]
  | create =>
    rw [← onCreateResponse_returns lib (s.output (.ran tsd)) ho]
    simp only [runCallback, forall_const]
    cases hr : (s.output (.ran tsd)).onCreateResponse lib message <;> simp

theorem onMsg_returns : (s.onMsg lib msg).2 = .ok () ↔ Acceptable lib s msg := by
  cases hp : lib.parse msg with
  | none => simp [onMsg, Acceptable, hp]
  | some message =>
    have hacc : Acceptable lib s msg ↔ message.isObject = true ∧
        StringMember message "transaction" ∧
        ∀ tsd, message.find "transaction" = some (.string tsd) → tsd ≠ "" →
          s.responseCallbackMap.lookup tsd = some .create → Answer message := by
      simp [Acceptable, hp]
    rw [hacc]
    cases hv : message.value "transaction" "" with
    | error fault =>
      have hnot : ¬ (message.isObject = true ∧ StringMember message "transaction") := by
        intro h
        obtain ⟨tsd, htsd⟩ := (Json.value_isOk message "transaction" "").mpr h
        cases hv.symm.trans htsd
      simp only [onMsg, hp, hv, reduceCtorEq, false_iff]
      exact fun h => hnot ⟨h.1, h.2.1⟩
    | ok tsd =>
      obtain ⟨ho, hstr⟩ := (Json.value_isOk message "transaction" "").mp ⟨tsd, hv⟩
      have hunique : ∀ t, message.find "transaction" = some (.string t) → tsd = t := by
        intro t ht
        exact Except.ok.inj (hv.symm.trans (Json.value_ok.mpr ⟨ho, Or.inl ht⟩))
      by_cases hempty : tsd = ""
      · simp only [onMsg, hp, hv, if_pos hempty, true_iff]
        refine ⟨ho, hstr, fun t ht hne => ?_⟩
        exact absurd ((hunique t ht).symm.trans hempty) hne
      · have hfind : message.find "transaction" = some (.string tsd) := by
          obtain ⟨-, hf | ⟨-, hnil⟩⟩ := Json.value_ok.mp hv
          · exact hf
          · exact absurd hnil.symm hempty
        cases hcb : s.responseCallbackMap.lookup tsd with
        | none =>
          simp only [onMsg, hp, hv, if_neg hempty, output, hcb, true_iff]
          refine ⟨ho, hstr, fun t ht _ hl => ?_⟩
          rw [← hunique t ht, hcb] at hl
          cases hl
        | some callback =>
          rw [onMsg_registered hp hfind hempty hcb, runCallback_returns ho]
          constructor
          · intro h
            refine ⟨ho, hstr, fun t ht _ hl => h ?_⟩
            rw [← hunique t ht, hcb] at hl
            exact Option.some.inj hl
          · intro h hc
            exact h.2.2 tsd hfind hempty (by rw [hcb, hc])

theorem malformed_sessionId (h : Malformed lib msg) :
    (s.onMsg lib msg).1.sessionId = s.sessionId := by
  by_cases hreg : ∀ tsd, transaction lib msg = some tsd → tsd ≠ "" → tsd ∉ s.responseCallbackMap
  · rw [onMsg_unregistered hreg]
    rfl
  · push Not at hreg
    obtain ⟨tsd, htr, hempty, hmem⟩ := hreg
    obtain ⟨message, hp, hf⟩ := transaction_eq_some.mp htr
    obtain ⟨callback, hcb⟩ := Option.isSome_iff_exists.mp (AList.lookup_isSome.mpr hmem)
    have ho := Json.find_isObject hf
    have hstr : StringMember message "transaction" := by
      intro v hv
      rw [hf] at hv
      obtain rfl := Option.some.inj hv
      rfl
    have hnot := h message hp ho hstr
    rw [onMsg_registered hp hf hempty hcb]
    cases callback with
    | empty => rfl
    | create =>
      simp only [runCallback]
      cases hr : ({ s.output (.received msg) with
          responseCallbackMap := s.responseCallbackMap.erase tsd }.output
          (.ran tsd)).onCreateResponse lib message with
      | error fault => rfl
      | ok s' => exact absurd ((onCreateResponse_returns lib _ ho).mp ⟨s', hr⟩) hnot

end JanusSession

namespace SessionProcess

open JanusSession (Acceptable Malformed)

variable {F : Type} {lib : Nlohmann F}

/-- `OnMsg` returns, `OnRead` consumes the buffer and starts the next read, and a
malformed message does not touch the session's identifier. -/
structure ReadLoopSurvives (lib : Nlohmann F) (p : SessionProcess) (i : ℕ)
    (r : WebsocketTransport.Read) : Prop where
  returns : (p.session.onMsg lib p.ws.buffer).2 = .ok ()
  thread : (p.onRead lib i r none).io = p.io
  consumed : (p.onRead lib i r none).ws.buffer = []
  reading : (p.onRead lib i r none).ws.reads = p.ws.reads.eraseIdx i ++ [⟨p.ws.conn, []⟩]
  unchanged : Malformed lib p.ws.buffer →
    (p.onRead lib i r none).session.sessionId = p.session.sessionId

/-- The read loop survives exactly the acceptable messages. -/
theorem readLoopSurvives_iff (p : SessionProcess) (i : ℕ) (r : WebsocketTransport.Read) :
    ReadLoopSurvives lib p i r ↔ Acceptable lib p.session p.ws.buffer := by
  constructor
  · intro h
    exact JanusSession.onMsg_returns.mp h.returns
  · intro h
    have hret := JanusSession.onMsg_returns.mpr h
    have hbuffer : (p.ws.readCompletes i r none).buffer = p.ws.buffer := rfl
    have hread : p.onRead lib i r none = { p with
        session := (p.session.onMsg lib p.ws.buffer).1
        ws := (p.ws.readCompletes i r none).onRead [] none } := by
      simp only [onRead, hbuffer, hret]
    have hws : ((p.ws.readCompletes i r none).onRead [] none).buffer = [] ∧
        ((p.ws.readCompletes i r none).onRead [] none).reads =
          p.ws.reads.eraseIdx i ++ [⟨p.ws.conn, []⟩] := by
      simp only [WebsocketTransport.onRead, WebsocketTransport.doRead,
        WebsocketTransport.asyncRead]
      split_ifs <;> exact ⟨List.drop_length, rfl⟩
    refine ⟨hret, ?_, ?_, ?_, fun hm => ?_⟩ <;> rw [hread]
    · exact hws.1
    · exact hws.2
    · exact JanusSession.malformed_sessionId hm

/-- The first message of a session is an empty text: the io thread ends in it, with
no read outstanding and no handler to follow. -/
theorem empty_message_terminates : ∃ p r,
    (system JanusSession.exampleLib).exec (create "127.0.0.1" 8188) (opening "a") = some p ∧
    p.io = .running ∧ p.ws.reads = [r] ∧ p.ws.buffer = [] ∧
    (p.onRead JanusSession.exampleLib 0 r none).io = .terminated .parseError ∧
    (p.onRead JanusSession.exampleLib 0 r none).ws.reads = [] ∧
    ¬ ReadLoopSurvives JanusSession.exampleLib p 0 r :=
  ⟨_, _, rfl, rfl, rfl, rfl, rfl, rfl, fun h => nomatch h.returns⟩

end SessionProcess
end WebrtcNativeDemo
