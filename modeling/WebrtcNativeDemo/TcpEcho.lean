import WebrtcNativeDemo.TcpClient

/-!
# The echo server and its clients

`05_rtc_socket/tcp/server.cc` with any number of clients. `NewTcpConnection` makes an
`Echo` for every connection that is accepted, and an `Echo` sends what its socket reads
back on that socket. A packet that `Send` takes arrives whole, once and in order, and a
packet that it drops never does.
-/

namespace WebrtcNativeDemo

namespace TcpEcho

/-- A client's connection, and the packets that are on their way on it. -/
structure Connection where
  client : Client := {}
  -- `SignalConnect` has fired, the server has accepted
  connected : Bool := false
  accepted : Bool := false
  toServer : List String := []
  toClient : List String := []
  dropped : List String := []

/-- `Echo`, with the number of the connection that its `socket_` belongs to. -/
structure Echo where
  socket : ℕ
deriving DecidableEq, Repr

/-- `Send` on the client's socket. -/
def Connection.sendToServer (c : Connection) (dropped : Bool) (data : String) : Connection :=
  if dropped then { c with dropped := c.dropped ++ [data] }
  else { c with toServer := c.toServer ++ [data] }

/-- `Send` on the server's socket. -/
def Connection.sendToClient (c : Connection) (dropped : Bool) (data : String) : Connection :=
  if dropped then { c with dropped := c.dropped ++ [data] }
  else { c with toClient := c.toClient ++ [data] }

end TcpEcho

open TcpEcho in
structure TcpEcho where
  connections : List Connection := []
  echos : List Echo := []
  log : List String := []

namespace TcpEcho

def output (s : TcpEcho) (line : String) : TcpEcho := { s with log := s.log ++ [line] }

def update (s : TcpEcho) (i : ℕ) (f : Connection → Connection) : TcpEcho :=
  { s with connections := s.connections.modify i f }

def onNewConnection (s : TcpEcho) (i : ℕ) (remoteAddr : String) : TcpEcho :=
  let s := s.output (">>>>> new clinet " ++ remoteAddr)
  { s with echos := s.echos ++ [⟨i⟩] }

/-- `Echo::OnMsg`. -/
def onMsg (s : TcpEcho) (e : Echo) (data remoteAddr : String) (dropped : Bool) : TcpEcho :=
  (s.output ("receive msg: " ++ data ++ " from " ++ remoteAddr)).update e.socket
    fun c => c.sendToClient dropped data

/-- `Echo::OnClose`. -/
def onClose (s : TcpEcho) (e : Echo) (code : Int32) : TcpEcho :=
  let s := s.output ("==== close:" ++ toString code)
  { s with echos := s.echos.erase e }

/-- The objects that the signals of the server's socket `i` reach. -/
def readers (s : TcpEcho) (i : ℕ) : List Echo := s.echos.filter fun e => e.socket = i

/-! ### Steps -/

inductive Event
  | start
  | accept (i : ℕ) (remoteAddr : String)
  | connect (i : ℕ) (localAddr remoteAddr : String)
  | task (i : ℕ) (dropped : Bool)
  | serve (i : ℕ) (remoteAddr : String) (dropped : Bool)
  | deliver (i : ℕ) (remoteAddr : String)
  | closeClient (i : ℕ) (code : Int32)
  | closeEcho (i : ℕ) (code : Int32)

def Event.closes : Event → Bool
  | .closeClient _ _ | .closeEcho _ _ => true
  | _ => false

def accept (s : TcpEcho) (i : ℕ) (remoteAddr : String) (c : Connection) : Option TcpEcho :=
  if c.accepted then none
  else some ((s.update i fun c => { c with accepted := true }).onNewConnection i remoteAddr)

def connect (s : TcpEcho) (i : ℕ) (localAddr remoteAddr : String) (c : Connection) :
    Option TcpEcho :=
  if c.connected then none
  else (c.client.step (.connect localAddr remoteAddr)).map fun client =>
    s.update i fun c => { c with client, connected := true }

/-- A delayed task of the client `i`; `dropped` is the fate of the packet it sends. -/
def task (s : TcpEcho) (i : ℕ) (dropped : Bool) (c : Connection) : Option TcpEcho :=
  c.client.runTask.map fun (client, msg) =>
    s.update i fun c => msg.elim { c with client } ({ c with client }.sendToServer dropped)

def serve (s : TcpEcho) (i : ℕ) (remoteAddr : String) (dropped : Bool) (c : Connection) :
    Option TcpEcho :=
  match c.toServer with
  | [] => none
  | data :: rest =>
    if s.readers i = [] then none
    else some ((s.readers i).foldl (fun s e => s.onMsg e data remoteAddr dropped)
      (s.update i fun c => { c with toServer := rest }))

def deliver (s : TcpEcho) (i : ℕ) (remoteAddr : String) (c : Connection) : Option TcpEcho :=
  match c.toClient with
  | [] => none
  | data :: rest => (c.client.step (.packet data remoteAddr)).map fun client =>
    s.update i fun c => { c with client, toClient := rest }

def step (s : TcpEcho) : Event → Option TcpEcho
  | .start => some { s with connections := s.connections ++ [{}] }
  | .accept i remoteAddr => s.connections[i]?.bind (s.accept i remoteAddr)
  | .connect i localAddr remoteAddr => s.connections[i]?.bind (s.connect i localAddr remoteAddr)
  | .task i dropped => s.connections[i]?.bind (s.task i dropped)
  | .serve i remoteAddr dropped => s.connections[i]?.bind (s.serve i remoteAddr dropped)
  | .deliver i remoteAddr => s.connections[i]?.bind (s.deliver i remoteAddr)
  | .closeClient i code => s.connections[i]?.bind fun c =>
    (c.client.step (.close code)).map fun client => s.update i fun c => { c with client }
  | .closeEcho i code =>
    if s.readers i = [] then none
    else some ((s.readers i).foldl (fun s e => s.onClose e code) s)

def system : EventSystem TcpEcho Event := ⟨fun s => s = {}, step⟩

/-! ### One token for each connection -/

/-- The packets and tasks that the exchange of a connection can go on with. -/
def Connection.tokens (c : Connection) : ℕ :=
  c.client.tasks + c.toServer.length + c.toClient.length

structure Exchange (c : Connection) : Prop where
  client : Client.system.Reachable c.client
  alive : c.client.alive = true
  tokens : c.tokens + c.dropped.length = if c.connected then 1 else 0
  order : c.client.received ++ c.toClient ++ c.toServer ++ c.dropped = c.client.sent

variable {c : Connection} {s s' : TcpEcho} {i : ℕ}

theorem Exchange.le_one (h : Exchange c) :
    c.client.tasks + c.toServer.length + c.toClient.length + c.dropped.length ≤ 1 := by
  have htokens := h.tokens
  simp only [Connection.tokens] at htokens
  split_ifs at htokens <;> omega

/-- A client that has a task to run has got back all that it has sent. -/
theorem Exchange.scheduled (h : Exchange c) (ht : 0 < c.client.tasks) :
    c.toServer = [] ∧ c.toClient = [] ∧ c.dropped = [] ∧ c.client.received = c.client.sent := by
  have hle := h.le_one
  have hserver : c.toServer = [] := List.eq_nil_of_length_eq_zero (by omega)
  have hclient : c.toClient = [] := List.eq_nil_of_length_eq_zero (by omega)
  have hdropped : c.dropped = [] := List.eq_nil_of_length_eq_zero (by omega)
  have horder := h.order
  rw [hserver, hclient, hdropped] at horder
  exact ⟨hserver, hclient, hdropped, by simpa using horder⟩

/-! ### The two sends -/

section Send

variable {dropped : Bool} {data : String}

@[simp] theorem sendToServer_client : (c.sendToServer dropped data).client = c.client := by
  cases dropped <;> rfl

@[simp] theorem sendToServer_connected :
    (c.sendToServer dropped data).connected = c.connected := by
  cases dropped <;> rfl

@[simp] theorem sendToServer_accepted : (c.sendToServer dropped data).accepted = c.accepted := by
  cases dropped <;> rfl

@[simp] theorem sendToClient_client : (c.sendToClient dropped data).client = c.client := by
  cases dropped <;> rfl

@[simp] theorem sendToClient_connected :
    (c.sendToClient dropped data).connected = c.connected := by
  cases dropped <;> rfl

@[simp] theorem sendToClient_accepted : (c.sendToClient dropped data).accepted = c.accepted := by
  cases dropped <;> rfl

theorem sendToServer_tokens : (c.sendToServer dropped data).tokens +
    (c.sendToServer dropped data).dropped.length = c.tokens + c.dropped.length + 1 := by
  cases dropped <;> simp [Connection.sendToServer, Connection.tokens] <;> omega

theorem sendToClient_tokens : (c.sendToClient dropped data).tokens +
    (c.sendToClient dropped data).dropped.length = c.tokens + c.dropped.length + 1 := by
  cases dropped <;> simp [Connection.sendToClient, Connection.tokens] <;> omega

theorem sendToServer_order (hd : c.dropped = []) :
    (c.sendToServer dropped data).client.received ++ (c.sendToServer dropped data).toClient ++
      (c.sendToServer dropped data).toServer ++ (c.sendToServer dropped data).dropped =
        c.client.received ++ c.toClient ++ c.toServer ++ [data] := by
  cases dropped <;> simp [Connection.sendToServer, hd]

theorem sendToClient_order (hs : c.toServer = []) (hd : c.dropped = []) :
    (c.sendToClient dropped data).client.received ++ (c.sendToClient dropped data).toClient ++
      (c.sendToClient dropped data).toServer ++ (c.sendToClient dropped data).dropped =
        c.client.received ++ c.toClient ++ [data] := by
  cases dropped <;> simp [Connection.sendToClient, hs, hd]

end Send

/-! ### The events of a connection -/

theorem exchange_new : Exchange {} := ⟨.of_start rfl, rfl, rfl, rfl⟩

theorem exchange_accept (h : Exchange c) : Exchange { c with accepted := true } :=
  ⟨h.client, h.alive, h.tokens, h.order⟩

theorem exchange_connect {client : Client} {localAddr remoteAddr : String} (h : Exchange c)
    (hc : c.connected = false)
    (he : c.client.step (.connect localAddr remoteAddr) = some client) :
    Exchange { c with client, connected := true } := by
  have hreach : Client.system.Reachable client := Client.reachable_step h.client he
  obtain rfl := Client.step_connect he
  refine ⟨hreach, h.alive, ?_, h.order⟩
  have htokens := h.tokens
  simp only [Connection.tokens, hc, Bool.false_eq_true, if_false] at htokens
  simp only [Connection.tokens, Client.onConnect, Client.sendMsg, if_true]
  omega

theorem exchange_task {client : Client} {msg : Option String} (h : Exchange c)
    (he : c.client.runTask = some (client, msg)) (dropped : Bool) :
    Exchange (msg.elim { c with client } ({ c with client }.sendToServer dropped)) := by
  have hstep : c.client.step .task = some client := by simp [Client.step, he]
  have hreach : Client.system.Reachable client := Client.reachable_step h.client hstep
  cases Client.runTask_cases he with
  | deleted ht ha =>
    rw [h.alive] at ha
    cases ha
  | sends ht ha hc =>
    obtain ⟨hserver, hclient, hdropped, hsent⟩ := h.scheduled ht
    have htokens := h.tokens
    refine ⟨by simpa using hreach, by simpa using h.alive, ?_, ?_⟩
    · rw [Option.elim_some, sendToServer_tokens, sendToServer_connected]
      simp only [Connection.tokens] at htokens ⊢
      omega
    · refine (sendToServer_order ?_).trans ?_
      · exact hdropped
      · simp [hsent, hclient, hserver]

theorem exchange_serve {data : String} {rest : List String} (h : Exchange c)
    (hs : c.toServer = data :: rest) (dropped : Bool) :
    Exchange ({ c with toServer := rest }.sendToClient dropped data) := by
  have hle := h.le_one
  have htokens := h.tokens
  have horder := h.order
  rw [hs, List.length_cons] at hle
  have hrest : rest = [] := List.eq_nil_of_length_eq_zero (by omega)
  have hdropped : c.dropped = [] := List.eq_nil_of_length_eq_zero (by omega)
  rw [hs, hrest, hdropped] at horder
  refine ⟨by simpa using h.client, by simpa using h.alive, ?_, ?_⟩
  · rw [sendToClient_tokens, sendToClient_connected]
    simp only [Connection.tokens, hs, List.length_cons] at htokens ⊢
    omega
  · refine (sendToClient_order ?_ ?_).trans ?_
    · exact hrest
    · exact hdropped
    · simpa using horder

theorem exchange_deliver {data remoteAddr : String} {rest : List String} {client : Client}
    (h : Exchange c) (hc : c.toClient = data :: rest)
    (he : c.client.step (.packet data remoteAddr) = some client) :
    Exchange { c with client, toClient := rest } := by
  have hreach : Client.system.Reachable client := Client.reachable_step h.client he
  obtain rfl := Client.step_packet he
  have htokens := h.tokens
  have horder := h.order
  simp only [Connection.tokens, hc, List.length_cons] at htokens
  refine ⟨hreach, h.alive, ?_, ?_⟩
  · simp only [Connection.tokens, Client.onMsg, Client.sendMsg]
    omega
  · simpa [Client.onMsg, Client.sendMsg, hc] using horder

/-! ### The server -/

/-- Every connection is in an exchange of its own, and has one `Echo` once accepted. -/
structure Sound (s : TcpEcho) : Prop where
  exchange : ∀ (i : ℕ) (c : Connection), s.connections[i]? = some c → Exchange c
  readers : ∀ i, s.readers i = [] ∨
    s.readers i = [⟨i⟩] ∧ ∃ c : Connection, s.connections[i]? = some c ∧ c.accepted = true

theorem update_connections {f : Connection → Connection} {j : ℕ} :
    (s.update i f).connections[j]? =
      if i = j then s.connections[j]?.map f else s.connections[j]? := by
  simp only [update]
  by_cases h : i = j
  · subst h
    simp
  · simp [h]

theorem Sound.update {f : Connection → Connection} (h : Sound s) (hc : s.connections[i]? = some c)
    (hf : Exchange (f c)) (ha : c.accepted = true → (f c).accepted = true) :
    Sound (s.update i f) := by
  refine ⟨fun j d hd => ?_, fun j => ?_⟩
  · rw [update_connections] at hd
    split_ifs at hd with hij
    · subst hij
      rw [hc] at hd
      obtain rfl := Option.some.inj hd
      exact hf
    · exact h.exchange j d hd
  · rcases h.readers j with hnone | ⟨hone, d, hd, had⟩
    · exact Or.inl hnone
    · refine Or.inr ⟨hone, ?_⟩
      rw [update_connections]
      split_ifs with hij
      · subst hij
        obtain rfl := Option.some.inj (hc.symm.trans hd)
        exact ⟨f c, by rw [hc]; rfl, ha had⟩
      · exact ⟨d, hd, had⟩

theorem sound_start (h : Sound s) : Sound { s with connections := s.connections ++ [{}] } := by
  refine ⟨fun j d hd => ?_, fun j => ?_⟩
  · rcases Nat.lt_or_ge j s.connections.length with hlt | hge
    · rw [List.getElem?_append_left hlt] at hd
      exact h.exchange j d hd
    · rw [List.getElem?_append_right hge] at hd
      obtain rfl := List.mem_singleton.mp (List.mem_of_getElem? hd)
      exact exchange_new
  · rcases h.readers j with hnone | ⟨hone, d, hd, had⟩
    · exact Or.inl hnone
    · have hlt : j < s.connections.length := (List.getElem?_eq_some_iff.mp hd).1
      exact Or.inr ⟨hone, d, by rw [List.getElem?_append_left hlt]; exact hd, had⟩

theorem sound_accept {remoteAddr : String} (h : Sound s) (hc : s.connections[i]? = some c)
    (he : s.accept i remoteAddr c = some s') : Sound s' := by
  simp only [accept] at he
  split_ifs at he with ha
  obtain rfl := Option.some.inj he
  have hupdate : Sound (s.update i fun c => { c with accepted := true }) :=
    h.update hc (exchange_accept (h.exchange i c hc)) fun _ => rfl
  have hfirst : s.readers i = [] := by
    rcases h.readers i with hnone | ⟨-, d, hd, had⟩
    · exact hnone
    · obtain rfl := Option.some.inj (hc.symm.trans hd)
      exact absurd had ha
  refine ⟨hupdate.exchange, fun j => ?_⟩
  have hreaders : ((s.update i fun c => { c with accepted := true }).onNewConnection i
      remoteAddr).readers j = s.readers j ++ if i = j then [⟨i⟩] else [] := by
    simp only [TcpEcho.readers, onNewConnection, output, TcpEcho.update, List.filter_append]
    by_cases hij : i = j <;> simp [hij]
  rw [hreaders]
  split_ifs with hij
  · subst hij
    refine Or.inr ⟨by rw [hfirst]; rfl, { c with accepted := true }, ?_, rfl⟩
    show (s.update i fun c => { c with accepted := true }).connections[i]? = _
    rw [update_connections, if_pos rfl, hc]
    rfl
  · rw [List.append_nil]
    exact hupdate.readers j

theorem sound_serve {remoteAddr : String} {dropped : Bool} (h : Sound s)
    (hc : s.connections[i]? = some c) (he : s.serve i remoteAddr dropped c = some s') :
    Sound s' := by
  rcases hs : c.toServer with _ | ⟨data, rest⟩
  · simp [serve, hs] at he
  · simp only [serve, hs] at he
    split_ifs at he with hnone
    obtain ⟨hone, -⟩ := (h.readers i).resolve_left hnone
    obtain rfl := Option.some.inj he
    -- the one `Echo` of the connection sends the packet back on it
    have hexchange := exchange_serve (h.exchange i c hc) hs dropped
    have hsound : Sound (s.update i fun c => { c with toServer := rest }.sendToClient dropped
        data) :=
      h.update hc hexchange fun ha => sendToClient_accepted.trans ha
    have hsent : ((s.update i fun c => { c with toServer := rest }).onMsg ⟨i⟩ data remoteAddr
        dropped) = (s.update i fun c => { c with toServer := rest }.sendToClient dropped
          data).output ("receive msg: " ++ data ++ " from " ++ remoteAddr) := by
      simp only [onMsg, output, TcpEcho.update, List.modify_modify_eq]
      rfl
    rw [hone, List.foldl_cons, List.foldl_nil, hsent]
    exact ⟨hsound.exchange, hsound.readers⟩

theorem sound_step {e : Event} (he : s.step e = some s') (hn : e.closes = false) (h : Sound s) :
    Sound s' := by
  cases e with
  | start =>
    obtain rfl := Option.some.inj he
    exact sound_start h
  | accept i remoteAddr =>
    obtain ⟨c, hc, he⟩ := Option.bind_eq_some_iff.mp he
    exact sound_accept h hc he
  | connect i localAddr remoteAddr =>
    obtain ⟨c, hc, he⟩ := Option.bind_eq_some_iff.mp he
    simp only [connect] at he
    split_ifs at he with hcon
    obtain ⟨client, hstep, rfl⟩ := Option.map_eq_some_iff.mp he
    exact h.update hc (exchange_connect (h.exchange i c hc) (by simpa using hcon) hstep) id
  | task i dropped =>
    obtain ⟨c, hc, he⟩ := Option.bind_eq_some_iff.mp he
    obtain ⟨⟨client, msg⟩, hrun, rfl⟩ := Option.map_eq_some_iff.mp he
    refine h.update hc (exchange_task (h.exchange i c hc) hrun dropped) fun ha => ?_
    cases msg with
    | none => exact ha
    | some msg => exact sendToServer_accepted.trans ha
  | serve i remoteAddr dropped =>
    obtain ⟨c, hc, he⟩ := Option.bind_eq_some_iff.mp he
    exact sound_serve h hc he
  | deliver i remoteAddr =>
    obtain ⟨c, hc, he⟩ := Option.bind_eq_some_iff.mp he
    rcases hq : c.toClient with _ | ⟨data, rest⟩
    · simp [deliver, hq] at he
    · simp only [deliver, hq] at he
      obtain ⟨client, hstep, rfl⟩ := Option.map_eq_some_iff.mp he
      exact h.update hc (exchange_deliver (h.exchange i c hc) hq hstep) id
  | closeClient i code | closeEcho i code => cases hn

theorem sound_exec {es : List Event} (hs : system.exec {} es = some s)
    (hn : ∀ e ∈ es, e.closes = false) : Sound s := by
  have hvisit : system.Visits {} es s := ⟨es, List.prefix_rfl, hs⟩
  apply EventSystem.visits_invariant (I := Sound) _ _ s hvisit
  · exact ⟨by simp, fun _ => Or.inl rfl⟩
  · intro a e b he hab ha
    exact sound_step hab (hn e he) ha

theorem task_connection {dropped : Bool} (hc : s.connections[i]? = some c)
    (he : s.step (.task i dropped) = some s') : 0 < c.client.tasks := by
  obtain ⟨d, hd, he⟩ := Option.bind_eq_some_iff.mp he
  obtain rfl := Option.some.inj (hc.symm.trans hd)
  obtain ⟨⟨client, msg⟩, hrun, -⟩ := Option.map_eq_some_iff.mp he
  cases Client.runTask_cases hrun with
  | deleted ht ha => exact ht
  | sends ht ha hmax => exact ht

/-- As long as nothing is closed, every client plays ping-pong with its own `Echo`: one
token for each connection, packets numbered from 1, each sent when the echo of the one
before has arrived, and no packet but its own comes back. -/
theorem echo_pingPong {es : List Event} (hs : system.exec {} es = some s)
    (hn : ∀ e ∈ es, e.closes = false) (hc : s.connections[i]? = some c) :
    c.tokens ≤ 1 ∧ (c.connected = true → c.dropped = [] → c.tokens = 1) ∧
    c.client.sent = Client.hellos c.client.sent.length ∧
    c.client.received ++ c.toClient ++ c.toServer ++ c.dropped = c.client.sent ∧
    (∀ dropped s', s.step (.task i dropped) = some s' → c.client.received = c.client.sent) := by
  have h := (sound_exec hs hn).exchange i c hc
  have htokens := h.tokens
  refine ⟨?_, ?_, (Client.numbered_reachable h.client).sent, h.order, ?_⟩
  · have hle := h.le_one
    simp only [Connection.tokens]
    omega
  · intro hcon hdropped
    simpa [hcon, hdropped] using htokens
  · intro dropped s' he
    exact (h.scheduled (task_connection hc he)).2.2.2

/-- Two clients; a packet of the second is dropped on its way back. -/
def playing : List Event :=
  [.start, .start, .connect 1 "127.0.0.1:40001" "127.0.0.1:8888", .task 1 false,
    .connect 0 "127.0.0.1:40000" "127.0.0.1:8888", .accept 0 "127.0.0.1:40000",
    .accept 1 "127.0.0.1:40001", .task 0 false, .serve 1 "127.0.0.1:40001" true,
    .serve 0 "127.0.0.1:40000" false, .deliver 0 "127.0.0.1:8888", .task 0 false]

theorem echo_pingPong_playing : ∃ s c,
    system.exec {} playing = some s ∧ s.connections[0]? = some c ∧
    c.client.sent = ["hello 1", "hello 2"] ∧ c.client.received = ["hello 1"] ∧
    c.client.received ++ c.toClient ++ c.toServer ++ c.dropped = c.client.sent := by
  obtain ⟨s, c, hs, hc, hsent, hreceived⟩ : ∃ s c, system.exec {} playing = some s ∧
      s.connections[0]? = some c ∧ c.client.sent = ["hello 1", "hello 2"] ∧
      c.client.received = ["hello 1"] := ⟨_, _, rfl, rfl, rfl, rfl⟩
  exact ⟨s, c, hs, hc, hsent, hreceived,
    (echo_pingPong hs (by decide) hc).2.2.2.1⟩

end TcpEcho
end WebrtcNativeDemo
