import WebrtcNativeDemo.JsonRoundTrip
import WebrtcNativeDemo.SessionProcess
import WebrtcNativeDemo.TransportConnect

/-!
# What a session says

The messages that a session hands to its transport are create and keep-alive requests,
whatever happens on the two threads. With the parser and the serializer of
`nlohmann/json.hpp` in place of the parameters of the session, each of them is a text
that reads back as the request it was made for.
-/

namespace WebrtcNativeDemo

open WebsocketTransport (Call)

namespace WebsocketTransport

/-! ### Where the accepted messages come from -/

variable {t t' : WebsocketTransport} {data : Msg}

theorem calls_accepted (cs : List Call) (h : data ∈ accepted (t.calls cs).hist) :
    data ∈ accepted t.hist ∨ Call.sendMsg data.text ∈ cs := by
  induction cs generalizing t with
  | nil => exact .inl h
  | cons c cs ih =>
    have hcall : data ∈ accepted (t.call c).hist →
        data ∈ accepted t.hist ∨ c = Call.sendMsg data.text := by
      rw [call_eq]
      split_ifs
      · cases c with
        | sendMsg msg =>
          simp only [act, postSend, seen_append, List.mem_append]
          refine Or.imp_right fun hdata => ?_
          obtain rfl : data = ⟨t.allocated, msg⟩ := by simpa using hdata
          rfl
        | connect | disconnect => simp [act, startResolve, asyncResolve, postClose]
      · cases c <;> exact fun hdata => .inl (by simpa [refuse, output] using hdata)
    rcases ih h with h | h
    · exact (hcall h).imp_right fun hc => by simp [hc]
    · exact .inr (by simp [h])

theorem accepted_step {e : Event} (he : t.step e = some t') (h : data ∈ accepted t'.hist) :
    data ∈ accepted t.hist ∨ Call.sendMsg data.text ∈ e.callsMade ∨
      Call.sendMsg data.text ∈ t.entered := by
  have hsender : ∀ o : Output, o.bySender = true → o.acceptedMsg = none := by
    intro o ho
    cases o <;> first | rfl | cases ho
  cases e with
  | enter c =>
    obtain rfl := Option.some.inj he
    left
    split_ifs at h
    · exact h
    · cases c <;> simpa [refuse, output] using h
  | leave i =>
    obtain ⟨c, hc, rfl⟩ := step_leave.mp he
    cases c with
    | sendMsg msg =>
      simp only [act, postSend, seen_append, List.mem_append] at h
      refine h.imp_right fun hdata => .inr ?_
      obtain rfl : data = ⟨t.allocated, msg⟩ := by simpa using hdata
      exact List.mem_of_getElem? hc
    | connect | disconnect =>
      exact .inl (by simpa [act, startResolve, asyncResolve, postClose] using h)
  | resolved ec =>
    obtain ⟨-, rfl⟩ := step_resolved.mp he
    cases ec <;> exact .inl (by simpa [onResolve, fail, output, asyncConnect] using h)
  | tcpConnected ec =>
    obtain ⟨-, rfl⟩ := step_tcpConnected.mp he
    cases ec <;> exact .inl (by simpa [onConnect, fail, output, asyncHandshake] using h)
  | handshaken ec cs =>
    obtain ⟨-, rfl⟩ := step_handshaken.mp he
    cases ec with
    | some ec =>
      exact .inl (by simpa [onHandshake, handshakeCompletes, fail, output] using h)
    | none =>
      simp only [onHandshake, doRead, asyncRead, seen_append] at h
      split_ifs at h
      · rcases calls_accepted cs (by simpa using h) with h | h
        · exact .inl (by simpa [handshakeCompletes, output] using h)
        · exact .inr (.inl h)
      · exact .inl (by simpa [handshakeCompletes, output] using h)
  | frame i bytes =>
    obtain ⟨r, -, rfl⟩ := step_frame.mp he
    exact .inl h
  | readDone i ec cs =>
    obtain ⟨r, -, rfl⟩ := step_readDone.mp he
    cases ec with
    | some ec => exact .inl (by simpa [onRead, readCompletes, fail, output] using h)
    | none =>
      simp only [onRead, doRead, asyncRead, seen_append] at h
      split_ifs at h
      · rcases calls_accepted cs (by simpa using h) with h | h
        · exact .inl (by simpa [readCompletes, output] using h)
        · exact .inr (.inl h)
      · exact .inl (by simpa [readCompletes, output] using h)
  | writeDone i ec =>
    obtain ⟨w, -, rfl⟩ := step_writeDone.mp he
    cases ec with
    | some ec => exact .inl (by simpa [onWrite, writeCompletes, fail, output] using h)
    | none =>
      rw [accepted, onWrite_seen hsender (fun _ => rfl)] at h
      exact .inl (by simpa [writeCompletes, output] using h)
  | closeDone i ec =>
    obtain ⟨c, -, rfl⟩ := step_closeDone.mp he
    cases ec <;> exact .inl (by simpa [onClose, closeCompletes, fail, output] using h)
  | runPosted =>
    obtain ⟨p, rest, -, rfl⟩ := step_runPosted.mp he
    left
    cases p with
    | sendDataInner data' =>
      rw [accepted, runPosted, sendDataInner_seen hsender] at h
      exact h
    | disconnect =>
      simp only [runPosted] at h
      split_ifs at h
      · exact h
      · simpa [asyncClose] using h
  | notOpen =>
    obtain rfl := Option.some.inj he
    exact .inl h

end WebsocketTransport

namespace JanusSession

variable {F : Type} {lib : Nlohmann F} {s s' : JanusSession}

/-! ### The requests -/

/-- Where an answer with this identifier goes: to its callback, unless there was one
already. -/
def Awaited (lib : Nlohmann F) (s : JanusSession) (tsd : String) : Prop :=
  tsd ∈ s.responseCallbackMap ∨
    ∃ msg, .received msg ∈ s.hist ∧ transaction lib msg = some tsd

/-- The texts of the requests that a session has made. -/
inductive Request (lib : Nlohmann F) (s : JanusSession) : String → Prop
  | create {tsd : String} (h : Awaited lib s tsd) : Request lib s (lib.dump (createMsg tsd))
  | keepalive {sessionId : Int64} (h : sessionId ≠ -1) (tsd : String) :
      Request lib s (lib.dump (keepaliveMsg sessionId tsd))

structure Grows (lib : Nlohmann F) (s s' : JanusSession) : Prop where
  hist : ∀ o ∈ s.hist, o ∈ s'.hist
  callbacks : ∀ tsd ∈ s.responseCallbackMap, Awaited lib s' tsd

theorem Grows.request (h : Grows lib s s') {text : String} (hr : Request lib s text) :
    Request lib s' text := by
  cases hr with
  | create hr =>
    refine .create ?_
    rcases hr with hmem | ⟨msg, hmsg, htr⟩
    · exact h.callbacks _ hmem
    · exact .inr ⟨msg, h.hist _ hmsg, htr⟩
  | keepalive hid tsd => exact .keepalive hid tsd

theorem Grows.of_eq (hhist : ∀ o ∈ s.hist, o ∈ s'.hist)
    (hmap : s'.responseCallbackMap = s.responseCallbackMap) : Grows lib s s' :=
  ⟨hhist, fun _ htsd => .inl (hmap ▸ htsd)⟩

theorem onConnect_grows (lib : Nlohmann F) (s : JanusSession) (tsd : String) :
    Grows lib s (s.onConnect lib tsd).1 where
  hist o ho := by simp [onConnect, output, ho]
  callbacks k hk := .inl ((AList.mem_insert _).mpr (.inr hk))

theorem onWait_grows (lib : Nlohmann F) (s : JanusSession) (tsd : String) (ec : ErrorCode) :
    Grows lib s (s.onWait lib tsd ec).1 := by
  cases ec with
  | some ec => exact .of_eq (fun _ ho => ho) rfl
  | none =>
    simp only [onWait, doKeepAlive]
    split_ifs
    · exact .of_eq (fun o ho => by simp [keepAlive, output, ho]) rfl
    · exact .of_eq (fun o ho => by simp [keepAlive, output, ho]) rfl

theorem onCreateResponse_grows {message : Json F}
    (h : s.onCreateResponse lib message = .ok s') : Grows lib s s' := by
  refine .of_eq ?_ (onCreateResponse_frame h).1
  obtain ⟨success, -, ⟨-, hs⟩ | ⟨-, hf⟩ | ⟨-, -, rfl⟩⟩ := onCreateResponse_ok.mp h
  · obtain ⟨n, -, rfl⟩ := createSucceeded_ok.mp hs
    exact fun o ho => by simp [keepAlive, output, ho]
  · obtain ⟨code, reason, -, rfl⟩ := createFailed_ok.mp hf
    exact fun o ho => by simp [output, ho]
  · exact fun _ ho => ho

theorem Grows.trans {s'' : JanusSession} (h : Grows lib s s') (h' : Grows lib s' s'') :
    Grows lib s s'' := by
  refine ⟨fun o ho => h'.hist o (h.hist o ho), fun tsd htsd => ?_⟩
  rcases h.callbacks tsd htsd with hmem | ⟨msg, hmsg, htr⟩
  · exact h'.callbacks tsd hmem
  · exact .inr ⟨msg, h'.hist _ hmsg, htr⟩

theorem runCallback_grows (lib : Nlohmann F) (s : JanusSession) (tsd : String)
    (message : Json F) (callback : OnResponseCallback) :
    Grows lib s (runCallback lib s tsd message callback).1 := by
  cases callback with
  | empty => exact .of_eq (fun _ ho => ho) rfl
  | create =>
    have hran : Grows lib s (s.output (.ran tsd)) := .of_eq (fun o ho => by simp [output, ho]) rfl
    simp only [runCallback]
    cases hr : (s.output (.ran tsd)).onCreateResponse lib message with
    | error fault => exact hran
    | ok s' => exact hran.trans (onCreateResponse_grows hr)

/-- A callback is taken out of the map by a message that answers it. -/
theorem onMsg_grows (lib : Nlohmann F) (s : JanusSession) (msg : Bytes) :
    Grows lib s (s.onMsg lib msg).1 := by
  have hreceived : Grows lib s (s.output (.received msg)) :=
    .of_eq (fun o ho => by simp [output, ho]) rfl
  by_cases h : ∃ tsd, transaction lib msg = some tsd ∧ tsd ≠ "" ∧ tsd ∈ s.responseCallbackMap
  · obtain ⟨tsd, htr, hempty, hmem⟩ := h
    obtain ⟨message, hp, hf⟩ := transaction_eq_some.mp htr
    obtain ⟨callback, hcb⟩ := Option.isSome_iff_exists.mp (AList.lookup_isSome.mpr hmem)
    rw [onMsg_registered hp hf hempty hcb]
    have herased : Grows lib s { s.output (.received msg) with
        responseCallbackMap := s.responseCallbackMap.erase tsd } := by
      refine ⟨hreceived.hist, fun k hk => ?_⟩
      by_cases hkt : k = tsd
      · subst hkt
        exact .inr ⟨msg, by simp [output], htr⟩
      · exact .inl (AList.mem_erase.mpr ⟨hkt, hk⟩)
    exact herased.trans (runCallback_grows lib _ tsd message callback)
  · rw [onMsg_unregistered fun tsd htr hempty hmem => h ⟨tsd, htr, hempty, hmem⟩]
    exact hreceived

end JanusSession

namespace SessionProcess

variable {F : Type} {lib : Nlohmann F} {p p' : SessionProcess}

theorem grows_step {e : Event} (he : p.step lib e = some p') :
    JanusSession.Grows lib p.session p'.session := by
  cases session_moves he with
  | kept hk hs =>
    rw [hs]
    exact .of_eq (fun _ ho => ho) rfl
  | cancelled hd hs =>
    rw [hs]
    exact .of_eq (fun _ ho => ho) rfl
  | expired hs =>
    rw [hs]
    exact .of_eq (fun _ ho => ho) rfl
  | connected hs =>
    rw [hs]
    exact JanusSession.onConnect_grows lib _ _
  | received hr hs =>
    rw [hs]
    exact JanusSession.onMsg_grows lib _ _
  | @waited ec tsd timer ht hs =>
    rw [hs]
    have htimer : JanusSession.Grows lib p.session { p.session with keepAliveTimer := timer } :=
      .of_eq (fun _ ho => ho) rfl
    exact htimer.trans (JanusSession.onWait_grows lib _ tsd ec)

structure Says (lib : Nlohmann F) (p : SessionProcess) : Prop where
  entered : ∀ msg, Call.sendMsg msg ∉ p.ws.entered
  accepted : ∀ data ∈ WebsocketTransport.accepted p.ws.hist,
    JanusSession.Request lib p.session data.text

theorem says_fresh (h : Fresh p) : Says lib p := by
  obtain ⟨host, port, rfl⟩ := h
  exact ⟨by simp [create, WebsocketTransport.create, WebsocketTransport.setConnectCallback,
    WebsocketTransport.setMsgCallback], by simp [create, WebsocketTransport.create,
    WebsocketTransport.setConnectCallback, WebsocketTransport.setMsgCallback]⟩

/-- A step of the transport in which only requests are sent. -/
theorem says_transport {f : WebsocketTransport.Event} {q : SessionProcess} (h : Says lib p)
    (hf : p.ws.step f = some q.ws) (hg : JanusSession.Grows lib p.session q.session)
    (henter : ∀ msg, f ≠ .enter (.sendMsg msg))
    (hcalls : ∀ msg, Call.sendMsg msg ∈ f.callsMade → JanusSession.Request lib q.session msg) :
    Says lib q where
  entered msg hmem := by
    rw [WebsocketTransport.entered_step hf] at hmem
    cases f with
    | enter c =>
      simp only [WebsocketTransport.Event.enteredAfter] at hmem
      split_ifs at hmem
      · rcases List.mem_append.mp hmem with hmem | hmem
        · exact h.entered msg hmem
        · exact henter msg (by rw [List.mem_singleton.mp hmem])
      · exact h.entered msg hmem
    | leave i => exact h.entered msg (List.mem_of_mem_eraseIdx hmem)
    | resolved ec | tcpConnected ec | handshaken ec cs | frame i bytes | readDone i ec cs
    | writeDone i ec | closeDone i ec | runPosted | notOpen => exact h.entered msg hmem
  accepted data hdata := by
    rcases WebsocketTransport.accepted_step hf hdata with hdata | hdata | hdata
    · exact hg.request (h.accepted data hdata)
    · exact hcalls _ hdata
    · exact absurd hdata (h.entered _)

theorem says_handler {e : Event} (hq : p.handler lib e = some p') (h : Says lib p)
    (hg : JanusSession.Grows lib p.session p'.session) : Says lib p' := by
  cases e with
  | completion c =>
    obtain ⟨ws, hws, rfl⟩ := Option.map_eq_some_iff.mp hq
    refine says_transport h hws hg ?_ ?_
    · cases c <;> simp [Completion.event]
    · cases c <;> simp [Completion.event, WebsocketTransport.Event.callsMade]
  | handshaken ec tsd =>
    simp only [handler] at hq
    split_ifs at hq with hh
    obtain rfl := Option.some.inj hq
    cases ec with
    | some ec =>
      have hws : p.ws.step (.handshaken (some ec) []) =
          some ((p.ws.handshakeCompletes (some ec)).onHandshake [] (some ec)) :=
        WebsocketTransport.step_handshaken.mpr ⟨hh, rfl⟩
      exact says_transport h hws hg (by simp) (by simp [WebsocketTransport.Event.callsMade])
    | none =>
      have hws : p.ws.step (.handshaken none (p.session.onConnect lib tsd).2) =
          some ((p.ws.handshakeCompletes none).onHandshake (p.session.onConnect lib tsd).2 none) :=
        WebsocketTransport.step_handshaken.mpr ⟨hh, rfl⟩
      refine says_transport h hws hg (by simp) fun msg hmsg => ?_
      obtain rfl : msg = lib.dump (JanusSession.createMsg tsd) := by
        simpa [WebsocketTransport.Event.callsMade, JanusSession.onConnect] using hmsg
      exact .create (.inl ((AList.mem_insert _).mpr (.inl rfl)))
  | readDone i ec =>
    obtain ⟨r, hr, rfl⟩ := Option.map_eq_some_iff.mp hq
    have hws : p.ws.step (.readDone i ec []) = some ((p.ws.readCompletes i r ec).onRead [] ec) :=
      WebsocketTransport.step_readDone.mpr ⟨r, hr, rfl⟩
    cases ec with
    | some ec =>
      exact says_transport h hws hg (by simp) (by simp [WebsocketTransport.Event.callsMade])
    | none =>
      simp only [onRead] at hg ⊢
      cases hresult : (p.session.onMsg lib (p.ws.readCompletes i r none).buffer).2 with
      | ok u =>
        rw [hresult] at hg
        exact says_transport h hws hg (by simp) (by simp [WebsocketTransport.Event.callsMade])
      | error fault =>
        refine ⟨h.entered, fun data hdata => ?_⟩
        refine (JanusSession.onMsg_grows lib _ _).request (h.accepted data ?_)
        simpa [WebsocketTransport.readCompletes, WebsocketTransport.output] using hdata
  | waitDone ec tsd =>
    obtain ⟨timer, ht, rfl⟩ := Option.map_eq_some_iff.mp hq
    refine ⟨fun msg hmsg => h.entered msg (by simpa [onWait] using hmsg), fun data hdata => ?_⟩
    rcases WebsocketTransport.calls_accepted _ hdata with hdata | hdata
    · exact hg.request (h.accepted data hdata)
    · cases ec with
      | some ec => simp at hdata
      | none =>
        simp only [JanusSession.doKeepAlive] at hdata
        split_ifs at hdata with hid
        · simp at hdata
        · obtain hdata : data.text =
              lib.dump (JanusSession.keepaliveMsg p.session.sessionId tsd) := by
            simpa [JanusSession.output] using hdata
          rw [hdata]
          exact .keepalive hid tsd
  | init | destory | destroy | disconnect | leave | stop | poll | expire => cases hq

theorem says_step {e : Event} (he : p.step lib e = some p') (h : Says lib p) : Says lib p' := by
  have hg := grows_step he
  cases step_moves he with
  | init =>
    simp only [init] at hg ⊢
    split_ifs
    · exact h
    · exact ⟨by simpa using h.entered, h.accepted⟩
  | disconnect =>
    simp only [disconnect] at hg ⊢
    split_ifs
    · exact ⟨by simpa using h.entered, h.accepted⟩
    · exact ⟨h.entered, h.accepted⟩
  | leave hws =>
    exact says_transport h hws hg (by simp) (by simp [WebsocketTransport.Event.callsMade])
  | destory | destroy | stop | poll hio | expire =>
    exact ⟨h.entered, fun data hdata => hg.request (h.accepted data hdata)⟩
  | handler hrun hq =>
    have hsaid := says_handler hq h hg
    exact ⟨hsaid.entered, hsaid.accepted⟩

theorem says_reachable (h : (system lib).Reachable p) : Says lib p :=
  h.invariant (I := Says lib) (fun _ hp => says_fresh hp) fun _ _ _ he ha => says_step he ha

end SessionProcess

/-! ### The text of the requests -/

/-- The bytes of a `std::string` that holds UTF-8. -/
def toBytes (s : String) : Bytes := Utf8.encode s.toList

def ofBytes (s : Bytes) : String :=
  if h : s.toByteArray.IsValidUTF8 then .ofByteArray s.toByteArray h else ""

theorem toBytes_valid (s : String) : Utf8.Valid (toBytes s) := Utf8.valid_encode s.toList

theorem toByteArray_toBytes (s : String) : (toBytes s).toByteArray = s.toByteArray := by
  rw [← String.utf8Encode_toList]
  rfl

theorem ofBytes_toBytes (s : String) : ofBytes (toBytes s) = s := by
  simp only [ofBytes, toByteArray_toBytes, dif_pos s.isValidUTF8]

theorem toBytes_ofBytes {s : Bytes} (h : Utf8.Valid s) : toBytes (ofBytes s) = s := by
  obtain ⟨cs, rfl⟩ := Utf8.valid_iff.mp h
  have hs : Utf8.encode cs = toBytes (String.ofList cs) := by simp [toBytes]
  rw [hs, ofBytes_toBytes]

namespace BasicJson

variable {F : Type}

mutual

def ofJson : Json F → BasicJson F
  | .null => .null
  | .boolean b => .boolean b
  | .numberInteger i => .numberInteger i
  | .numberUnsigned u => .numberUnsigned u
  | .numberFloat x => .numberFloat x
  | .string s => .string (toBytes s)
  | .array elements => .array (ofElements elements)
  | .object members => .object (ofMembers members)

def ofElements : List (Json F) → List (BasicJson F)
  | [] => []
  | v :: vs => ofJson v :: ofElements vs

def ofMembers : List (String × Json F) → List (Bytes × BasicJson F)
  | [] => []
  | (k, v) :: ms => (toBytes k, ofJson v) :: ofMembers ms

end

mutual

def toJson : BasicJson F → Json F
  | .null => .null
  | .boolean b => .boolean b
  | .numberInteger i => .numberInteger i
  | .numberUnsigned u => .numberUnsigned u
  | .numberFloat x => .numberFloat x
  | .string s => .string (ofBytes s)
  | .array elements => .array (toElements elements)
  | .object members => .object (toMembers members)

def toElements : List (BasicJson F) → List (Json F)
  | [] => []
  | v :: vs => toJson v :: toElements vs

def toMembers : List (Bytes × BasicJson F) → List (String × Json F)
  | [] => []
  | (k, v) :: ms => (ofBytes k, toJson v) :: toMembers ms

end

theorem ofElements_eq (vs : List (Json F)) : ofElements vs = vs.map ofJson := by
  induction vs with
  | nil => rfl
  | cons v vs ih => rw [ofElements, ih, List.map_cons]

theorem ofMembers_eq (ms : List (String × Json F)) :
    ofMembers ms = ms.map fun e => (toBytes e.1, ofJson e.2) := by
  induction ms with
  | nil => rfl
  | cons e ms ih => rw [ofMembers, ih, List.map_cons]

theorem ofJson_utf8 (v : Json F) : (ofJson v).Everywhere Utf8Here := by
  generalize hw : ofJson v = w
  induction w using BasicJson.induction generalizing v with
  | h w ih =>
    subst hw
    refine .intro ?_ fun w hw => ?_
    · cases v with
      | string s => exact toBytes_valid s
      | object members =>
        intro k hk
        rw [ofMembers_eq] at hk
        simp only [OrderedMap.keys, List.map_map, List.mem_map] at hk
        obtain ⟨e, -, rfl⟩ := hk
        exact toBytes_valid e.1
      | _ => trivial
    · have hchild : ∃ u, ofJson u = w := by
        cases v with
        | array elements =>
          rw [ofJson, ofElements_eq] at hw
          obtain ⟨u, -, rfl⟩ := List.mem_map.mp hw
          exact ⟨u, rfl⟩
        | object members =>
          rw [ofJson, ofMembers_eq] at hw
          simp only [children, List.map_map, List.mem_map] at hw
          obtain ⟨e, -, rfl⟩ := hw
          exact ⟨e.2, rfl⟩
        | _ => cases hw
      obtain ⟨u, hu⟩ := hchild
      exact ih w hw u hu

end BasicJson

/-- The library of the session, with the casts of floating point numbers left open. -/
def nlohmann {F : Type} (lib : FloatLib F) (floatToInt64 : F → Int64) (floatToInt32 : F → Int32) :
    Nlohmann F where
  parse msg := (JsonParser.parse lib msg).toOption.map BasicJson.toJson
  dump v :=
    match (BasicJson.ofJson v).dump lib (-1) 0x20 false .strict with
    | .ok text => ofBytes text
    | .error _ => ""
  floatToInt64
  floatToInt32

section Nlohmann

variable {F : Type} {lib : FloatLib F} {floatToInt64 : F → Int64} {floatToInt32 : F → Int32}

/-- What is dumped can be parsed, and the whole of it is in the string. -/
theorem nlohmann_parse (hfloat : lib.RoundTrips) (v : Json F) :
    (nlohmann lib floatToInt64 floatToInt32).parse
        (toBytes ((nlohmann lib floatToInt64 floatToInt32).dump v)) =
      some (BasicJson.toJson (Serializer.reread lib id (BasicJson.ofJson v))) := by
  have hutf8 := BasicJson.ofJson_utf8 v
  obtain ⟨out, hout⟩ := (Serializer.dump_isOk lib _ 0x20 false).mpr hutf8
  have htext := Serializer.dump_wholeText hfloat rfl (.inl (by decide)) hout
  rw [Serializer.reread_strict hutf8] at htext
  simp only [nlohmann, hout, toBytes_ofBytes (JsonParser.text_utf8 htext),
    Serializer.parse_text htext]
  rfl

/-- The members of a request are in the order of their keys. -/
theorem nlohmann_parse_object (hfloat : lib.RoundTrips) {ms : List (String × Json F)}
    (h : (ms.map fun e => toBytes e.1).Pairwise (· < ·)) :
    (nlohmann lib floatToInt64 floatToInt32).parse
        (toBytes ((nlohmann lib floatToInt64 floatToInt32).dump (.object ms))) =
      some (.object (BasicJson.toMembers ((BasicJson.ofMembers ms).map fun e =>
        (e.1, Serializer.reread lib id e.2)))) := by
  have hkeys : OrderedMap.keys (BasicJson.ofMembers ms) = ms.map fun e => toBytes e.1 := by
    rw [BasicJson.ofMembers_eq, OrderedMap.keys, List.map_map]
    rfl
  have hsorted : OrderedMap.Sorted (BasicJson.ofMembers ms) := by
    rwa [OrderedMap.Sorted, hkeys]
  rw [nlohmann_parse hfloat, BasicJson.ofJson, Serializer.reread_object hsorted, BasicJson.toJson]

theorem parse_createMsg (hfloat : lib.RoundTrips) (tsd : String) :
    (nlohmann lib floatToInt64 floatToInt32).parse
        (toBytes ((nlohmann lib floatToInt64 floatToInt32).dump (JanusSession.createMsg tsd))) =
      some (JanusSession.createMsg tsd) := by
  have hkeys : [toBytes "janus", toBytes "transaction"].Pairwise (· < ·) := by decide +kernel
  refine (nlohmann_parse_object hfloat ?_).trans ?_
  · exact hkeys
  · simp [BasicJson.ofMembers, BasicJson.ofJson, Serializer.reread, BasicJson.toMembers,
      BasicJson.toJson, ofBytes_toBytes, JanusSession.createMsg]

/-- A session id that is not negative comes back as an unsigned number. -/
theorem parse_keepaliveMsg (hfloat : lib.RoundTrips) (sessionId : Int64) (tsd : String) :
    (nlohmann lib floatToInt64 floatToInt32).parse (toBytes
        ((nlohmann lib floatToInt64 floatToInt32).dump
          (JanusSession.keepaliveMsg sessionId tsd))) =
      some (.object [("janus", .string "keepalive"),
        ("session_id", if sessionId < 0 then .numberInteger sessionId
          else .numberUnsigned sessionId.toUInt64),
        ("transaction", .string tsd)]) := by
  have hkeys : [toBytes "janus", toBytes "session_id", toBytes "transaction"].Pairwise
      (· < ·) := by decide +kernel
  refine (nlohmann_parse_object hfloat ?_).trans ?_
  · exact hkeys
  · simp only [BasicJson.ofMembers, BasicJson.ofJson, Serializer.reread, List.map_cons,
      List.map_nil, BasicJson.toMembers, BasicJson.toJson, ofBytes_toBytes, id]
    split_ifs <;> rfl

namespace SessionProcess

/-- Whatever happens on the two threads, each message that a session sends is read back
as a create request whose answer it waits for or has had, or as a keep-alive with its
session id. -/
theorem accepted_requests (hfloat : lib.RoundTrips) {p : SessionProcess}
    (h : (system (nlohmann lib floatToInt64 floatToInt32)).Reachable p) :
    ∀ data ∈ WebsocketTransport.accepted p.ws.hist, ∃ message tsd,
      (nlohmann lib floatToInt64 floatToInt32).parse (toBytes data.text) = some message ∧
      message.find "transaction" = some (.string tsd) ∧
      (message.find "janus" = some (.string "create") ∧
          JanusSession.Awaited (nlohmann lib floatToInt64 floatToInt32) p.session tsd ∨
        message.find "janus" = some (.string "keepalive") ∧
          ∃ n sessionId, message.find "session_id" = some n ∧ sessionId ≠ -1 ∧
            n.getInt64 (nlohmann lib floatToInt64 floatToInt32) = .ok sessionId) := by
  intro data hdata
  have hrequest := (says_reachable h).accepted data hdata
  generalize data.text = text at hrequest
  cases hrequest with
  | @create tsd hawaited =>
    exact ⟨_, tsd, parse_createMsg hfloat tsd, rfl, .inl ⟨rfl, hawaited⟩⟩
  | @keepalive sessionId hid tsd =>
    refine ⟨_, tsd, parse_keepaliveMsg hfloat sessionId tsd, rfl, .inr ⟨rfl, _, sessionId, rfl,
      hid, ?_⟩⟩
    split_ifs
    · rfl
    · simp [Json.getInt64]

end SessionProcess

end Nlohmann

namespace SessionProcess

open Serializer (wholeNumbers)

theorem accepted_requests_opening : ∃ p data,
    (system (nlohmann wholeNumbers (fun _ => 0) fun _ => 0)).exec (create "127.0.0.1" 8188)
      (opening "a") = some p ∧
    WebsocketTransport.accepted p.ws.hist = [data] ∧ ∃ message tsd,
      (nlohmann wholeNumbers (fun _ => 0) fun _ => 0).parse (toBytes data.text) = some message ∧
      message.find "transaction" = some (.string tsd) ∧
      (message.find "janus" = some (.string "create") ∧
          JanusSession.Awaited (nlohmann wholeNumbers (fun _ => 0) fun _ => 0) p.session tsd ∨
        message.find "janus" = some (.string "keepalive") ∧
          ∃ n sessionId, message.find "session_id" = some n ∧ sessionId ≠ -1 ∧
            n.getInt64 (nlohmann wholeNumbers (fun _ => 0) fun _ => 0) = .ok sessionId) :=
  ⟨_, _, rfl, rfl, accepted_requests Serializer.wholeNumbers_roundTrips
    ⟨create "127.0.0.1" 8188, opening "a", ⟨_, _, rfl⟩, rfl⟩ _ (List.mem_singleton_self _)⟩

end SessionProcess

end WebrtcNativeDemo
