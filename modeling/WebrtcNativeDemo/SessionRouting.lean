import WebrtcNativeDemo.JanusSession
import WebrtcNativeDemo.Library.Requests

/-!
# Routing of responses

The runs of a session's handlers against the log of its requests: `OnConnect` issues
a create request, and a message with a transaction answers the request of that
identifier. The map of callbacks holds the outstanding requests, and a callback runs
when its request is answered first.
-/

namespace WebrtcNativeDemo.JanusSession

open Requests (Outstanding Answered outstanding_issue outstanding_answer)

variable {F : Type} (lib : Nlohmann F)

inductive Event
  | onConnect (tsd : String)
  | onMsg (msg : Bytes)
  | onWait (ec : ErrorCode) (tsd : String)

/-- The session behind a handler, returned or thrown. -/
def handle (s : JanusSession) : Event → JanusSession
  | .onConnect tsd => (s.onConnect lib tsd).1
  | .onMsg msg => (s.onMsg lib msg).1
  | .onWait ec tsd => (s.onWait lib tsd ec).1

def run (s : JanusSession) (es : List Event) : JanusSession := es.foldl (handle lib) s

def create : JanusSession := {}

def Event.entries : Event → List (Requests.Entry String)
  | .onConnect tsd => [.issue tsd]
  | .onMsg msg => (transaction lib msg).toList.map .answer
  | .onWait _ _ => []

def requestLog (es : List Event) : List (Requests.Entry String) := es.flatMap (Event.entries lib)

def Event.issuedId : Event → Option String
  | .onConnect tsd => some tsd
  | _ => none

def issued (es : List Event) : List String := es.filterMap Event.issuedId

@[simp] def Output.ranId : Output → Option String
  | .ran tsd => some tsd
  | _ => none

def ran (h : List Output) : List String := h.filterMap Output.ranId

/-- The event is a message that answers the outstanding request `tsd`. -/
def Answers (es : List Event) (e : Event) (tsd : String) : Prop :=
  ∃ msg, e = .onMsg msg ∧ transaction lib msg = some tsd ∧ Outstanding (requestLog lib es) tsd

/-- `n` is the `data.id` of a success message that was the first answer to a request. -/
def FirstSuccess (es : List Event) (n : Int64) : Prop :=
  ∃ pre msg post tsd message, es = pre ++ .onMsg msg :: post ∧ Answers lib pre (.onMsg msg) tsd ∧
    lib.parse msg = some message ∧ message.find "janus" = some (.string "success") ∧
    SuccessId lib message n

variable {lib} {s s' : JanusSession}

@[simp] theorem ran_append (h k : List Output) : ran (h ++ k) = ran h ++ ran k :=
  List.filterMap_append

theorem run_append_singleton (s : JanusSession) (es : List Event) (e : Event) :
    run lib s (es ++ [e]) = handle lib (run lib s es) e := List.foldl_append

theorem requestLog_append_singleton (es : List Event) (e : Event) :
    requestLog lib (es ++ [e]) = requestLog lib es ++ e.entries lib := by
  simp [requestLog]

theorem issue_mem_requestLog {es : List Event} {tsd : String}
    (h : .issue tsd ∈ requestLog lib es) : tsd ∈ issued es := by
  obtain ⟨e, he, hmem⟩ := List.mem_flatMap.mp h
  cases e with
  | onConnect tsd' =>
    obtain rfl : tsd = tsd' := by simpa [Event.entries] using hmem
    exact List.mem_filterMap.mpr ⟨_, he, rfl⟩
  | onMsg msg => simp [Event.entries] at hmem
  | onWait ec tsd' => simp [Event.entries] at hmem

theorem count_issue_requestLog (es : List Event) (tsd : String) :
    (requestLog lib es).count (.issue tsd) = (issued es).count tsd := by
  induction es using List.reverseRecOn with
  | nil => rfl
  | append_singleton es e ih =>
    have hissued : issued (es ++ [e]) = issued es ++ e.issuedId.toList := by
      cases h : e.issuedId <;> simp [issued, h]
    rw [requestLog_append_singleton, List.count_append, ih, hissued, List.count_append]
    apply congrArg
    cases e with
    | onConnect tsd' =>
      by_cases h : tsd' = tsd <;> simp [Event.entries, Event.issuedId, h]
    | onMsg msg =>
      cases htr : transaction lib msg <;> simp [Event.entries, Event.issuedId, htr]
    | onWait ec tsd' => rfl

theorem onWait_frame (lib : Nlohmann F) (s : JanusSession) (tsd : String) (ec : ErrorCode) :
    (s.onWait lib tsd ec).1.responseCallbackMap = s.responseCallbackMap ∧
      (s.onWait lib tsd ec).1.sessionId = s.sessionId ∧
      ran (s.onWait lib tsd ec).1.hist = ran s.hist := by
  cases ec with
  | some ec => exact ⟨rfl, rfl, rfl⟩
  | none =>
    simp only [onWait, doKeepAlive]
    split_ifs <;> simp [keepAlive, output, ran]

theorem onConnect_frame (lib : Nlohmann F) (s : JanusSession) (tsd : String) :
    (s.onConnect lib tsd).1.responseCallbackMap = s.responseCallbackMap.insert tsd .create ∧
      (s.onConnect lib tsd).1.sessionId = s.sessionId ∧
      ran (s.onConnect lib tsd).1.hist = ran s.hist := by
  refine ⟨rfl, rfl, ?_⟩
  simp [onConnect, output, ran]

theorem onCreateResponse_ran {message : Json F} (h : s.onCreateResponse lib message = .ok s') :
    ran s'.hist = ran s.hist := by
  obtain ⟨success, -, ⟨-, hs⟩ | ⟨-, hf⟩ | ⟨-, -, rfl⟩⟩ := onCreateResponse_ok.mp h
  · obtain ⟨n, -, rfl⟩ := createSucceeded_ok.mp hs
    simp [keepAlive, output, ran]
  · obtain ⟨code, reason, -, rfl⟩ := createFailed_ok.mp hf
    simp [output, ran]
  · rfl

theorem janus_success {message : Json F} (h : message.value "janus" "" = .ok "success") :
    message.find "janus" = some (.string "success") := by
  obtain ⟨-, hf | ⟨-, hne⟩⟩ := Json.value_ok.mp h
  · exact hf
  · exact absurd hne (by decide)

theorem runCallback_create (lib : Nlohmann F) (s : JanusSession) (tsd : String) (message : Json F) :
    (runCallback lib s tsd message .create).1.responseCallbackMap = s.responseCallbackMap ∧
      ran (runCallback lib s tsd message .create).1.hist = ran s.hist ++ [tsd] ∧
      ((runCallback lib s tsd message .create).1.sessionId = s.sessionId ∨
        message.find "janus" = some (.string "success") ∧
          SuccessId lib message (runCallback lib s tsd message .create).1.sessionId) := by
  simp only [runCallback]
  cases hr : (s.output (.ran tsd)).onCreateResponse lib message with
  | error fault => exact ⟨rfl, by simp [output, ran], Or.inl rfl⟩
  | ok s' =>
    obtain ⟨hmap, hid⟩ := onCreateResponse_frame hr
    refine ⟨hmap, by rw [onCreateResponse_ran hr]; simp [output, ran], ?_⟩
    rcases hid with hid | ⟨hjanus, hid⟩
    · exact Or.inl hid
    · exact Or.inr ⟨janus_success hjanus, hid⟩

/-- The session against the log of its requests. -/
structure Routed (lib : Nlohmann F) (es : List Event) (s : JanusSession) : Prop where
  callbacks : ∀ tsd callback, s.responseCallbackMap.lookup tsd = some callback → callback = .create
  keys : ∀ tsd, tsd ∈ s.responseCallbackMap ↔ Outstanding (requestLog lib es) tsd
  answered : Answered (requestLog lib es) (ran s.hist)
  session : s.sessionId = -1 ∨ FirstSuccess lib es s.sessionId

theorem FirstSuccess.append {es : List Event} {n : Int64} (h : FirstSuccess lib es n)
    (e : Event) : FirstSuccess lib (es ++ [e]) n := by
  obtain ⟨pre, msg, post, tsd, message, rfl, h⟩ := h
  exact ⟨pre, msg, post ++ [e], tsd, message, by simp, h⟩

theorem handle_idle {es : List Event} (h : Routed lib es s) {msg : Bytes}
    (hidle : ∀ tsd, ¬ Answers lib es (.onMsg msg) tsd) :
    handle lib s (.onMsg msg) = s.output (.received msg) := by
  apply onMsg_unregistered
  intro tsd htr _ hmem
  exact hidle tsd ⟨msg, rfl, htr, (h.keys tsd).mp hmem⟩

theorem handle_answer {es : List Event} (h : Routed lib es s) (hne : ∀ tsd ∈ issued es, tsd ≠ "")
    {msg : Bytes} {tsd : String} (ha : Answers lib es (.onMsg msg) tsd) :
    (handle lib s (.onMsg msg)).responseCallbackMap = s.responseCallbackMap.erase tsd ∧
      ran (handle lib s (.onMsg msg)).hist = ran s.hist ++ [tsd] ∧
      ((handle lib s (.onMsg msg)).sessionId = s.sessionId ∨
        ∃ message, lib.parse msg = some message ∧
          message.find "janus" = some (.string "success") ∧
          SuccessId lib message (handle lib s (.onMsg msg)).sessionId) := by
  obtain ⟨msg', hmsg, htr, hout⟩ := ha
  obtain rfl : msg = msg' := Event.onMsg.inj hmsg
  obtain ⟨message, hp, hf⟩ := transaction_eq_some.mp htr
  have hempty : tsd ≠ "" := hne tsd (issue_mem_requestLog hout.issued)
  obtain ⟨callback, hcb⟩ := Option.isSome_iff_exists.mp
    (AList.lookup_isSome.mpr ((h.keys tsd).mpr hout))
  obtain rfl := h.callbacks tsd callback hcb
  have hrun := onMsg_registered hp hf hempty hcb
  obtain ⟨hmap, hran, hid⟩ := runCallback_create lib { s.output (.received msg) with
    responseCallbackMap := s.responseCallbackMap.erase tsd } tsd message
  simp only [handle, hrun]
  refine ⟨hmap, by rw [hran]; simp [output, ran], ?_⟩
  rcases hid with hid | hid
  · exact Or.inl hid
  · exact Or.inr ⟨message, hp, hid⟩

theorem routed_create : Routed lib [] create := by
  refine ⟨?_, ?_, .nil, Or.inl rfl⟩
  · intro tsd callback h
    cases h
  · intro tsd
    simp [requestLog, create]

theorem routed_onConnect {es : List Event} (h : Routed lib es s) (tsd : String) :
    Routed lib (es ++ [.onConnect tsd]) (handle lib s (.onConnect tsd)) := by
  obtain ⟨hmap, hid, hran⟩ := onConnect_frame lib s tsd
  refine ⟨?_, ?_, ?_, ?_⟩
  · intro k callback hk
    simp only [handle, hmap] at hk
    by_cases hkt : k = tsd
    · subst hkt
      rw [AList.lookup_insert] at hk
      exact (Option.some.inj hk).symm
    · rw [AList.lookup_insert_ne hkt] at hk
      exact h.callbacks k callback hk
  · intro k
    simp only [handle, hmap, requestLog_append_singleton, Event.entries, outstanding_issue,
      AList.mem_insert, h.keys k]
    exact or_comm
  · simp only [handle, hran, requestLog_append_singleton, Event.entries]
    exact .issue tsd h.answered
  · simp only [handle, hid]
    exact h.session.imp_right fun hf => hf.append _

theorem routed_onWait {es : List Event} (h : Routed lib es s) (ec : ErrorCode) (tsd : String) :
    Routed lib (es ++ [.onWait ec tsd]) (handle lib s (.onWait ec tsd)) := by
  obtain ⟨hmap, hid, hran⟩ := onWait_frame lib s tsd ec
  have hlog : requestLog lib (es ++ [.onWait ec tsd]) = requestLog lib es := by
    simp [requestLog_append_singleton, Event.entries]
  refine ⟨?_, ?_, ?_, ?_⟩ <;> simp only [handle, hmap, hid, hran, hlog]
  · exact h.callbacks
  · exact h.keys
  · exact h.answered
  · exact h.session.imp_right fun hf => hf.append _

theorem routed_answer {es : List Event} (h : Routed lib es s) (hne : ∀ tsd ∈ issued es, tsd ≠ "")
    {msg : Bytes} {tsd : String} (ha : Answers lib es (.onMsg msg) tsd) :
    Routed lib (es ++ [.onMsg msg]) (handle lib s (.onMsg msg)) := by
  obtain ⟨hmap, hran, hid⟩ := handle_answer h hne ha
  obtain ⟨msg', hmsg, htr, hout⟩ := id ha
  obtain rfl : msg = msg' := Event.onMsg.inj hmsg
  have hlog : requestLog lib (es ++ [.onMsg msg]) = requestLog lib es ++ [.answer tsd] := by
    simp [requestLog_append_singleton, Event.entries, htr]
  refine ⟨?_, ?_, ?_, ?_⟩
  · intro k callback hk
    rw [hmap] at hk
    by_cases hkt : k = tsd
    · subst hkt
      simp at hk
    · rw [AList.lookup_erase_ne hkt] at hk
      exact h.callbacks k callback hk
  · intro k
    rw [hmap, hlog, outstanding_answer, AList.mem_erase, h.keys k, and_comm]
  · rw [hran, hlog]
    exact .effective h.answered hout
  · rcases hid with hid | ⟨message, hp, hjanus, hid⟩
    · rw [hid]
      exact h.session.imp_right fun hf => hf.append _
    · exact Or.inr ⟨es, msg, [], tsd, message, rfl, ha, hp, hjanus, hid⟩

theorem routed_idle {es : List Event} (h : Routed lib es s) {msg : Bytes}
    (hidle : ∀ tsd, ¬ Answers lib es (.onMsg msg) tsd) :
    Routed lib (es ++ [.onMsg msg]) (handle lib s (.onMsg msg)) := by
  have hran : ran (s.output (.received msg)).hist = ran s.hist := by simp [output, ran]
  rw [handle_idle h hidle]
  -- an answer in the log that meets no outstanding request
  have hlog : requestLog lib (es ++ [.onMsg msg]) = requestLog lib es ∨
      ∃ tsd, requestLog lib (es ++ [.onMsg msg]) = requestLog lib es ++ [.answer tsd] ∧
        ¬ Outstanding (requestLog lib es) tsd := by
    cases htr : transaction lib msg with
    | none => simp [requestLog_append_singleton, Event.entries, htr]
    | some tsd =>
      right
      exact ⟨tsd, by simp [requestLog_append_singleton, Event.entries, htr],
        fun hout => hidle tsd ⟨msg, rfl, htr, hout⟩⟩
  refine ⟨h.callbacks, ?_, ?_, h.session.imp_right fun hf => hf.append _⟩
  · intro k
    rcases hlog with hlog | ⟨tsd, hlog, hnot⟩
    · rw [hlog]
      exact h.keys k
    · rw [hlog, outstanding_answer]
      constructor
      · intro hk
        have hout := (h.keys k).mp hk
        exact ⟨hout, fun hkt => hnot (hkt ▸ hout)⟩
      · exact fun hk => (h.keys k).mpr hk.1
  · rw [hran]
    rcases hlog with hlog | ⟨tsd, hlog, hnot⟩
    · rw [hlog]
      exact h.answered
    · rw [hlog]
      exact .idle h.answered hnot

theorem routed_step {es : List Event} (h : Routed lib es s) (hne : ∀ tsd ∈ issued es, tsd ≠ "")
    (e : Event) : Routed lib (es ++ [e]) (handle lib s e) := by
  cases e with
  | onConnect tsd => exact routed_onConnect h tsd
  | onWait ec tsd => exact routed_onWait h ec tsd
  | onMsg msg =>
    by_cases ha : ∃ tsd, Answers lib es (.onMsg msg) tsd
    · obtain ⟨tsd, ha⟩ := ha
      exact routed_answer h hne ha
    · exact routed_idle h fun tsd hn => ha ⟨tsd, hn⟩

theorem routed_run (lib : Nlohmann F) (es : List Event) (hne : ∀ tsd ∈ issued es, tsd ≠ "") :
    Routed lib es (run lib create es) := by
  induction es using List.reverseRecOn with
  | nil => exact routed_create
  | append_singleton es e ih =>
    have hne' : ∀ tsd ∈ issued es, tsd ≠ "" := by
      intro tsd h
      apply hne
      simp only [issued, List.filterMap_append]
      exact List.mem_append_left _ h
    rw [run_append_singleton]
    exact routed_step (ih hne') hne' e

/-- What the event `e` does after `es`: an answer to an outstanding request runs its
callback, and everything else leaves callbacks, identifier and, if it is a message,
the map as they are. -/
structure RoutesNext (lib : Nlohmann F) (es : List Event) (e : Event) : Prop where
  answer : ∀ tsd, Answers lib es e tsd →
    ran (run lib create (es ++ [e])).hist = ran (run lib create es).hist ++ [tsd]
  idle : (∀ tsd, ¬ Answers lib es e tsd) →
    ran (run lib create (es ++ [e])).hist = ran (run lib create es).hist ∧
      (run lib create (es ++ [e])).sessionId = (run lib create es).sessionId ∧
      ∀ msg, e = .onMsg msg → (run lib create (es ++ [e])).responseCallbackMap =
        (run lib create es).responseCallbackMap

theorem routesNext (lib : Nlohmann F) (es : List Event) (hne : ∀ tsd ∈ issued es, tsd ≠ "")
    (e : Event) :
    RoutesNext lib es e := by
  have h := routed_run lib es hne
  constructor
  · intro tsd ha
    obtain ⟨msg, rfl, -⟩ := id ha
    rw [run_append_singleton]
    exact (handle_answer h hne ha).2.1
  · intro hidle
    rw [run_append_singleton]
    cases e with
    | onConnect tsd =>
      obtain ⟨-, hid, hran⟩ := onConnect_frame lib (run lib create es) tsd
      exact ⟨hran, hid, by simp⟩
    | onWait ec tsd =>
      obtain ⟨-, hid, hran⟩ := onWait_frame lib (run lib create es) tsd ec
      exact ⟨hran, hid, by simp⟩
    | onMsg msg =>
      rw [handle_idle h hidle]
      exact ⟨by simp [output, ran], rfl, fun _ _ => rfl⟩

/-- Every response finds its request: the map holds the outstanding requests, each
callback runs once at most and on the first answer, and the session's identifier
comes from such an answer. -/
theorem response_routing (es : List Event) (hne : ∀ tsd ∈ issued es, tsd ≠ "")
    (hnd : (issued es).Nodup) :
    (∀ tsd, tsd ∈ (run lib create es).responseCallbackMap ↔
      Outstanding (requestLog lib es) tsd) ∧
    (∀ tsd, (ran (run lib create es).hist).count tsd ≤ 1) ∧
    (∀ pre e post, es = pre ++ e :: post → RoutesNext lib pre e) ∧
    ((run lib create es).sessionId = -1 ∨ FirstSuccess lib es (run lib create es).sessionId) := by
  have h := routed_run lib es hne
  refine ⟨h.keys, fun tsd => ?_, fun pre e post hes => ?_, h.session⟩
  · apply h.answered.count_le_one
    rw [count_issue_requestLog]
    exact List.nodup_iff_count_le_one.mp hnd tsd
  · apply routesNext lib pre _ e
    intro tsd hmem
    apply hne
    rw [hes, issued, List.filterMap_append]
    exact List.mem_append_left _ hmem

def successText : Bytes :=
  [123, 34, 106, 97, 110, 117, 115, 34, 58, 34, 115, 117, 99, 99, 101, 115, 115, 34, 44, 34, 116,
    114, 97, 110, 115, 97, 99, 116, 105, 111, 110, 34, 58, 34, 97, 34, 44, 34, 100, 97, 116, 97, 34,
    58, 123, 34, 105, 100, 34, 58, 55, 125, 125]

def exampleLib : Nlohmann Unit where
  parse text := if text = successText then
      some (.object [("janus", .string "success"), ("transaction", .string "a"),
        ("data", .object [("id", .numberUnsigned 7)])])
    else none
  dump _ := "\x7b\"janus\":\"create\",\"transaction\":\"a\"\x7d"
  floatToInt64 _ := 0
  floatToInt32 _ := 0

theorem response_routing_success :
    (run exampleLib create [.onConnect "a", .onMsg successText]).sessionId = 7 ∧
    ∀ tsd, tsd ∈ (run exampleLib create [.onConnect "a", .onMsg successText]).responseCallbackMap ↔
      Outstanding (requestLog exampleLib [.onConnect "a", .onMsg successText]) tsd :=
  ⟨by decide, (response_routing [.onConnect "a", .onMsg successText] (by decide) (by decide)).1⟩

end WebrtcNativeDemo.JanusSession
