import WebrtcNativeDemo.SigslotLinks

/-!
# The signals of the echo program's sockets

What `client.cc` and `server.cc` of `05_rtc_socket/tcp` do with the signals of their
sockets. A `Client` or an `Echo` is connected to the signals of a socket that it owns, so
that `delete this` in `OnClose` destroys the signal that is calling it.
-/

namespace WebrtcNativeDemo

open Sigslot (Emitted Fault)

namespace TcpSignals

inductive Method
  | onConnect
  | onClose
  | onMsg
  | onNewConnection
deriving DecidableEq, Repr

/-- The signals of an `AsyncPacketSocket` that the programs connect to. -/
structure PacketSocket where
  signalReadPacket : ℕ
  signalConnect : ℕ
  signalClose : ℕ

/-- What connects a signal to a slot. -/
structure Wire where
  signal : ℕ
  slots : ℕ
  method : Method

inductive Kind
  | client
  | echo

/-- A `Client` or an `Echo` with its `socket_`. -/
structure Owner where
  kind : Kind
  slots : ℕ
  socket : PacketSocket

/-- The `AsyncTcpListenSocket` and the object `tcp_connection`. -/
structure Listener where
  signalNewConnection : ℕ
  tcpConnection : ℕ

def PacketSocket.signals (s : PacketSocket) : List ℕ :=
  [s.signalReadPacket, s.signalConnect, s.signalClose]

def Wire.connect (w : Wire) : Sigslot.Event Method := .connect w.signal w.slots w.method

def Owner.wires (o : Owner) : List Wire :=
  match o.kind with
  | .client => [⟨o.socket.signalConnect, o.slots, .onConnect⟩,
      ⟨o.socket.signalClose, o.slots, .onClose⟩, ⟨o.socket.signalReadPacket, o.slots, .onMsg⟩]
  | .echo => [⟨o.socket.signalReadPacket, o.slots, .onMsg⟩,
      ⟨o.socket.signalClose, o.slots, .onClose⟩]

def Listener.wire (l : Listener) : Wire :=
  ⟨l.signalNewConnection, l.tcpConnection, .onNewConnection⟩

/-- The constructors of `Client` and `Echo`. -/
def Owner.construct (o : Owner) : List (Sigslot.Event Method) :=
  .newSlots :: o.wires.map Wire.connect

/-- `delete this`. The members are destroyed before the base class `has_slots`, and the
signals of the socket in the reverse of their order. -/
def Owner.delete (o : Owner) : List (Sigslot.Event Method) :=
  [.destroySignal o.socket.signalClose, .destroySignal o.socket.signalConnect,
    .destroySignal o.socket.signalReadPacket, .destroySlots o.slots]

/-- The constructor of a socket. -/
def newSocket : List (Sigslot.Event Method) := [.newSignal, .newSignal, .newSignal]

end TcpSignals

open TcpSignals in
structure TcpSignals where
  objects : Sigslot Method := {}
  owners : List Owner := []
  listener : Option Listener := none
  -- the socket that `SignalNewConnection` passes on
  accepted : Option PacketSocket := none

namespace TcpSignals

variable (p : TcpSignals)

def perform (es : List (Sigslot.Event Method)) : TcpSignals :=
  match es.foldlM Sigslot.apply p.objects with
  | .ok objects => { p with objects }
  | .error fault => { p with objects := { p.objects with fault := some fault } }

def nextSocket : PacketSocket :=
  ⟨p.objects.builtSignals, p.objects.builtSignals + 1, p.objects.builtSignals + 2⟩

/-- `new Client(socket)`, `new Echo(socket)`. -/
def newOwner (kind : Kind) (socket : PacketSocket) : TcpSignals :=
  let o : Owner := ⟨kind, p.objects.builtSlots, socket⟩
  { p.perform o.construct with owners := p.owners ++ [o] }

/-- The body of the slot that was called. `OnConnect` and `OnMsg` post a task or send, and
do nothing with signals. -/
def body (c : Emitted Method) : TcpSignals :=
  match c.method with
  | .onConnect | .onMsg => p
  | .onClose => (p.owners.find? (·.slots = c.dest)).elim p fun o => p.perform o.delete
  | .onNewConnection => p.accepted.elim p (p.newOwner .echo)

/-- What the thread does that the sockets belong to. `fires i k` is a signal of the `i`-th
owner's socket, the `k`-th of those that it is connected to. -/
inductive Event
  | newClient
  | listen
  | accept
  | fires (i k : ℕ)
  | turn
deriving DecidableEq, Repr

/-- The thread is not in an `emit`. -/
def Idle : Prop := p.objects.fault = none ∧ p.objects.firing = []

instance : Decidable p.Idle :=
  inferInstanceAs (Decidable (p.objects.fault = none ∧ p.objects.firing = []))

def step : Event → Option TcpSignals
  | .newClient =>
    if p.Idle then some ((p.perform newSocket).newOwner .client p.nextSocket) else none
  | .listen =>
    if p.Idle ∧ p.listener.isNone then
      let l : Listener := ⟨p.objects.builtSignals, p.objects.builtSlots⟩
      some { p.perform [.newSignal, .newSlots, l.wire.connect] with listener := some l }
    else none
  | .accept => p.listener.bind fun l =>
    if p.Idle then
      some { p.perform (newSocket ++ [.emit l.signalNewConnection]) with
        accepted := some p.nextSocket }
    else none
  | .fires i k => (p.owners[i]?.bind (·.wires[k]?)).bind fun w =>
    if p.Idle ∧ (p.objects.signals w.signal).isSome then some (p.perform [.emit w.signal]) else none
  | .turn =>
    if p.objects.fault = none ∧ p.objects.firing ≠ [] then
      let q := p.perform [.turn]
      some (q.objects.hist[p.objects.hist.length]?.elim q q.body)
    else none

def system : EventSystem TcpSignals Event := ⟨fun p => p = {}, step⟩

/-! ### Objects that are constructed -/

section Objects

open Sigslot (Sane)

variable {a b c : Sigslot Method}

/-- The slots and methods that a signal is connected to. -/
def targets (a : Sigslot Method) (s : ℕ) : Option (List (ℕ × Method)) :=
  (a.signals s).map fun sig => sig.connectedSlots.map fun conn => (conn.dest, conn.method)

/-- What is there stays, and of the signals only those in `touched` are changed. -/
structure Extends (touched : List ℕ) (a b : Sigslot Method) : Prop where
  sane : Sane b
  firing : b.firing = a.firing
  fault : b.fault = a.fault
  hist : b.hist = a.hist
  slots : ∀ d, (a.slots d).isSome = true → (b.slots d).isSome = true
  alive : ∀ s, (a.signals s).isSome = true → (b.signals s).isSome = true
  signals : ∀ s ∉ touched, (a.signals s).isSome = true → b.signals s = a.signals s

theorem Extends.trans {touched touched' : List ℕ} (h : Extends touched a b)
    (h' : Extends touched' b c) : Extends (touched ++ touched') a c where
  sane := h'.sane
  firing := h'.firing.trans h.firing
  fault := h'.fault.trans h.fault
  hist := h'.hist.trans h.hist
  slots d hd := h'.slots d (h.slots d hd)
  alive s hs := h'.alive s (h.alive s hs)
  signals s hs halive := by
    simp only [List.mem_append, not_or] at hs
    rw [h'.signals s hs.2 (h.alive s halive), h.signals s hs.1 halive]

theorem isSome_of_targets {s : ℕ} {l : List (ℕ × Method)} (h : targets a s = some l) :
    (a.signals s).isSome = true := by
  cases hs : a.signals s with
  | none => simp [targets, hs] at h
  | some sig => rfl

theorem Extends.targets_eq {touched : List ℕ} (h : Extends touched a b) {s : ℕ}
    {l : List (ℕ × Method)} (hs : s ∉ touched) (hl : targets a s = some l) :
    targets b s = some l := by
  rw [← hl, targets, targets, h.signals s hs (isSome_of_targets hl)]

theorem newSignal_spec (h : Sane a) :
    Extends [] a a.newSignal ∧ targets a.newSignal a.builtSignals = some [] := by
  have hnew : ∀ s, (a.signals s).isSome = true → a.newSignal.signals s = a.signals s := by
    intro s hs
    obtain ⟨sig, hsig⟩ := Option.isSome_iff_exists.mp hs
    have hlt := h.firing.alive s sig hsig
    simp [Sigslot.newSignal, Sigslot.setSignal, Nat.ne_of_lt hlt]
  refine ⟨⟨?_, rfl, rfl, rfl, fun _ hd => hd, fun s hs => ?_, fun s _ hs => hnew s hs⟩, ?_⟩
  · exact h.applied (e := .newSignal) rfl trivial rfl
  · rw [hnew s hs]
    exact hs
  · simp [targets, Sigslot.newSignal, Sigslot.setSignal]

theorem newSlots_spec (h : Sane a) :
    Extends [] a a.newSlots ∧ (a.newSlots.slots a.builtSlots).isSome = true := by
  refine ⟨⟨?_, rfl, rfl, rfl, fun d hd => ?_, fun _ hs => hs, fun _ _ _ => rfl⟩, ?_⟩
  · exact h.applied (e := .newSlots) rfl trivial rfl
  · by_cases hnew : d = a.builtSlots
    · simp [Sigslot.newSlots, Sigslot.setSlots, hnew]
    · simpa [Sigslot.newSlots, Sigslot.setSlots, hnew] using hd
  · simp [Sigslot.newSlots, Sigslot.setSlots]

theorem connect_spec (h : Sane a) {w : Wire} {l : List (ℕ × Method)}
    (hl : targets a w.signal = some l) (hd : (a.slots w.slots).isSome = true) :
    ∃ b, a.apply w.connect = .ok b ∧ Extends [w.signal] a b ∧
      targets b w.signal = some (l ++ [(w.slots, w.method)]) := by
  obtain ⟨sig, hs, rfl⟩ := Option.map_eq_some_iff.mp hl
  obtain ⟨x, hx⟩ := Option.isSome_iff_exists.mp hd
  have happly : a.apply w.connect = .ok (({ a with allocated := a.allocated + 1 }.setSignal
      w.signal (some (sig.push ⟨a.allocated, w.slots, w.method⟩))).setSlots w.slots
        (some ⟨x.senders.insert w.signal⟩)) := by
    simp only [Sigslot.apply, Wire.connect, Sigslot.connect, Sigslot.pushBack, Sigslot.aliveSignal,
      hs]
    simp only [bind, Except.bind, pure, Except.pure, Sigslot.signalConnect, Sigslot.aliveSlots,
      Sigslot.setSignal, hx]
  refine ⟨_, happly, ⟨?_, rfl, rfl, rfl, fun d hd => ?_, fun s hs => ?_, fun s hs _ => ?_⟩, ?_⟩
  · have henabled : a.enabled w.connect = true := by
      simp [Sigslot.enabled, Wire.connect, hs, hx]
    exact h.applied henabled trivial happly
  · by_cases hw : d = w.slots
    · simp [Sigslot.setSlots, hw]
    · simpa [Sigslot.setSlots, Sigslot.setSignal, hw] using hd
  · by_cases hw : s = w.signal
    · simp [Sigslot.setSignal, Sigslot.setSlots, hw]
    · simpa [Sigslot.setSignal, Sigslot.setSlots, hw] using hs
  · have hw : s ≠ w.signal := by simpa using hs
    simp [Sigslot.setSignal, Sigslot.setSlots, hw]
  · simp [targets, Sigslot.setSignal, Sigslot.setSlots, Sigslot.SignalBase.push]

theorem connects_spec (h : Sane a) {ws : List Wire} (hnodup : (ws.map Wire.signal).Nodup)
    (hs : ∀ w ∈ ws, targets a w.signal = some [])
    (hd : ∀ w ∈ ws, (a.slots w.slots).isSome = true) :
    ∃ b, (ws.map Wire.connect).foldlM Sigslot.apply a = .ok b ∧
      Extends (ws.map Wire.signal) a b ∧
      ∀ w ∈ ws, targets b w.signal = some [(w.slots, w.method)] := by
  induction ws generalizing a with
  | nil => exact ⟨a, rfl, ⟨h, rfl, rfl, rfl, fun _ hd => hd, fun _ hs => hs, fun _ _ _ => rfl⟩,
      by simp⟩
  | cons w ws ih =>
    obtain ⟨hnew, hnodup⟩ := List.nodup_cons.mp hnodup
    obtain ⟨hws, hs⟩ := List.forall_mem_cons.mp hs
    obtain ⟨hwd, hd⟩ := List.forall_mem_cons.mp hd
    obtain ⟨b, hb, hab, hw⟩ := connect_spec h hws hwd
    have hother : ∀ v ∈ ws, v.signal ∉ [w.signal] := by
      intro v hv hvw
      rw [List.mem_singleton] at hvw
      exact hnew (hvw ▸ List.mem_map_of_mem hv)
    obtain ⟨c, hc, hbc, hall⟩ := ih hab.sane hnodup
      (fun v hv => hab.targets_eq (hother v hv) (hs v hv)) fun v hv => hab.slots _ (hd v hv)
    refine ⟨c, ?_, hab.trans hbc, List.forall_mem_cons.mpr ⟨hbc.targets_eq hnew hw, hall⟩⟩
    simp only [List.map_cons, List.foldlM_cons, hb]
    exact hc

theorem Extends.mono {touched touched' : List ℕ} (h : Extends touched a b)
    (hsub : touched ⊆ touched') : Extends touched' a b :=
  ⟨h.sane, h.firing, h.fault, h.hist, h.slots, h.alive,
    fun s hs halive => h.signals s (fun hmem => hs (hsub hmem)) halive⟩

theorem newSocket_spec (h : Sane a) : ∃ b, newSocket.foldlM Sigslot.apply a = .ok b ∧
    Extends [] a b ∧ ∀ k < 3, targets b (a.builtSignals + k) = some [] := by
  obtain ⟨h₁, hs₁⟩ := newSignal_spec h
  obtain ⟨h₂, hs₂⟩ := newSignal_spec h₁.sane
  obtain ⟨h₃, hs₃⟩ := newSignal_spec h₂.sane
  refine ⟨a.newSignal.newSignal.newSignal, rfl, (h₁.trans h₂).trans h₃, fun k hk => ?_⟩
  have hcases : k = 0 ∨ k = 1 ∨ k = 2 := by omega
  rcases hcases with rfl | rfl | rfl
  · exact h₃.targets_eq (by simp) (h₂.targets_eq (by simp) hs₁)
  · exact h₃.targets_eq (by simp) hs₂
  · exact hs₃

theorem PacketSocket.signals_nodup {s : PacketSocket} :
    s.signals.Nodup ↔ s.signalReadPacket ≠ s.signalConnect ∧
      s.signalReadPacket ≠ s.signalClose ∧ s.signalConnect ≠ s.signalClose := by
  simp [PacketSocket.signals, and_assoc]

theorem Owner.wires_slots {o : Owner} {w : Wire} (hw : w ∈ o.wires) : w.slots = o.slots := by
  cases hkind : o.kind <;> simp only [Owner.wires, hkind, List.mem_cons, List.not_mem_nil,
    or_false] at hw
  · rcases hw with rfl | rfl | rfl <;> rfl
  · rcases hw with rfl | rfl <;> rfl

theorem Owner.wires_method {o : Owner} {w : Wire} (hw : w ∈ o.wires) :
    w.method ≠ .onNewConnection := by
  cases hkind : o.kind <;> simp only [Owner.wires, hkind, List.mem_cons, List.not_mem_nil,
    or_false] at hw
  · rcases hw with rfl | rfl | rfl <;> simp
  · rcases hw with rfl | rfl <;> simp

theorem Owner.wires_subset (o : Owner) : o.wires.map Wire.signal ⊆ o.socket.signals := by
  intro s hs
  cases hkind : o.kind <;> simp only [Owner.wires, hkind, List.map_cons, List.map_nil,
    List.mem_cons, List.not_mem_nil, or_false] at hs <;>
    simp only [PacketSocket.signals, List.mem_cons, List.not_mem_nil, or_false] <;> tauto

theorem Owner.wires_nodup {o : Owner} (h : o.socket.signals.Nodup) :
    (o.wires.map Wire.signal).Nodup := by
  obtain ⟨hread, hclose, hconnect⟩ := PacketSocket.signals_nodup.mp h
  cases hkind : o.kind <;> simp [Owner.wires, hkind, hclose, hconnect, Ne.symm hread,
    Ne.symm hclose]

theorem construct_spec (h : Sane a) {o : Owner} (ho : o.slots = a.builtSlots)
    (hnodup : o.socket.signals.Nodup) (hfree : ∀ s ∈ o.socket.signals, targets a s = some []) :
    ∃ b, o.construct.foldlM Sigslot.apply a = .ok b ∧ Extends o.socket.signals a b ∧
      (b.slots o.slots).isSome = true ∧
      ∀ w ∈ o.wires, targets b w.signal = some [(w.slots, w.method)] := by
  obtain ⟨hnew, halive⟩ := newSlots_spec h
  have hwires : ∀ w ∈ o.wires, targets a.newSlots w.signal = some [] := fun w hw =>
    hnew.targets_eq (by simp) (hfree _ (o.wires_subset (List.mem_map_of_mem hw)))
  obtain ⟨b, hb, hext, hall⟩ := connects_spec hnew.sane (Owner.wires_nodup hnodup) hwires
    fun w hw => by rwa [Owner.wires_slots hw, ho]
  refine ⟨b, ?_, (hnew.trans hext).mono (by simpa using o.wires_subset), ?_, hall⟩
  · simp only [Owner.construct, List.foldlM_cons]
    exact hb
  · exact hext.slots _ (by rwa [ho])

/-! ### A signal that fires, and an object that is deleted -/

def cursor (a : Sigslot Method) (s : ℕ) : Option ℕ := (a.signals s).bind (·.currentIterator)

/-- Between the two, signals have at most moved their iterators. -/
structure Moved (a b : Sigslot Method) : Prop where
  sane : Sane b
  fault : b.fault = a.fault
  slots : b.slots = a.slots
  targets : ∀ s, targets b s = targets a s

theorem Moved.alive (h : Moved a b) {s : ℕ} (hs : (a.signals s).isSome = true) :
    (b.signals s).isSome = true := by
  obtain ⟨sig, hsig⟩ := Option.isSome_iff_exists.mp hs
  refine isSome_of_targets (l := sig.connectedSlots.map fun conn => (conn.dest, conn.method)) ?_
  rw [h.targets, TcpSignals.targets, hsig]
  rfl

theorem targets_setSignal {s : ℕ} {sig : Sigslot.SignalBase Method} (hs : a.signals s = some sig)
    (it : Option ℕ) (t : ℕ) :
    targets (a.setSignal s (some { sig with currentIterator := it })) t = targets a t := by
  by_cases ht : t = s
  · simp [targets, Sigslot.setSignal, ht, hs]
  · simp [targets, Sigslot.setSignal, ht]

theorem emit_spec (h : Sane a) {s : ℕ} {target : ℕ × Method}
    (hl : targets a s = some [target]) :
    ∃ b e, a.apply (.emit s) = .ok b ∧ Moved a b ∧ b.hist = a.hist ∧
      b.firing = e :: a.firing ∧ e.signal = s ∧ (cursor b s).isSome = true := by
  obtain ⟨sig, hsig, hmap⟩ := Option.map_eq_some_iff.mp hl
  obtain ⟨conn, hconn, -⟩ := List.map_eq_singleton_iff.mp hmap
  have happly : a.apply (.emit s) = .ok ({ a with
      firing := ⟨s, a.allocated, [], []⟩ :: a.firing }.setSignal s
        (some { sig with currentIterator := sig.nodes.head? })) := by
    simp only [Sigslot.apply, Sigslot.emit, Sigslot.aliveSignal, hsig]
    rfl
  have hsane := h.applied (e := .emit s) (by simp [Sigslot.enabled, hsig]) trivial happly
  refine ⟨_, _, happly, ⟨hsane, rfl, rfl, fun t => targets_setSignal hsig _ t⟩, rfl, rfl, rfl, ?_⟩
  simp [cursor, Sigslot.setSignal, Sigslot.SignalBase.nodes, hconn]

/-- The loop of `emit` for a signal with one connection. -/
theorem turn_spec (h : Sane a) {e : Sigslot.Emission} (hf : a.firing = [e]) {d : ℕ} {m : Method}
    (hl : targets a e.signal = some [(d, m)]) :
    (cursor a e.signal = none ∧ Moved a { a with firing := [] } ∧
        a.apply .turn = .ok { a with firing := [] }) ∨
      (cursor a e.signal).isSome = true ∧ ∃ b e', a.apply .turn = .ok b ∧ Moved a b ∧
        b.hist = a.hist ++ [⟨e.signal, d, m⟩] ∧ b.firing = [e'] ∧ e'.signal = e.signal ∧
        cursor b e.signal = none := by
  obtain ⟨sig, hs, hmap⟩ := Option.map_eq_some_iff.mp hl
  obtain ⟨conn, hconn, hpair⟩ := List.map_eq_singleton_iff.mp hmap
  obtain ⟨rfl, rfl⟩ := Prod.mk.inj hpair
  have henabled : a.enabled .turn = true := by simp [Sigslot.enabled, hf]
  cases hq : a.apply .turn with
  | error fault =>
    obtain ⟨f, rest, hfiring, -, hnone⟩ :=
      Sigslot.linked_fails ⟨h.firing, h.known, henabled⟩ h.linked hq
    rw [hf] at hfiring
    obtain ⟨rfl, -⟩ := List.cons.inj hfiring
    simp [hs] at hnone
  | ok b =>
    have hsane := h.applied henabled trivial hq
    cases (Sigslot.turn_ends h.firing.walkable hf).1 b hq with
    | returns hs' hend =>
      obtain rfl := Option.some.inj (hs.symm.trans hs')
      exact .inl ⟨by simp [cursor, hs, hend], ⟨hsane, rfl, rfl, fun _ => rfl⟩, rfl⟩
    | @calls _ conn' hs' hcur hmem hdest =>
      obtain rfl := Option.some.inj (hs.symm.trans hs')
      obtain rfl : conn' = conn := by simpa [hconn] using hmem
      have hlast : SafeWalk.following sig.nodes conn'.node = none := by
        simp [SafeWalk.following, Sigslot.SignalBase.nodes, hconn]
      refine .inr ⟨by simp [cursor, hs, hcur], _, _, rfl, ⟨hsane, rfl, rfl, fun t => ?_⟩, rfl,
        rfl, rfl, ?_⟩
      · exact targets_setSignal hs _ t
      · simp [cursor, Sigslot.setSignal, hlast]

theorem destroySignal_spec (h : Sane a) {s : ℕ} (hs : (a.signals s).isSome = true) :
    ∃ b, a.apply (.destroySignal s) = .ok b ∧ Sane b ∧ b.firing = a.firing ∧
      b.fault = a.fault ∧ b.hist = a.hist ∧ b.signals s = none ∧
      (∀ t, t ≠ s → b.signals t = a.signals t) ∧
      ∀ d, (b.slots d).isSome = (a.slots d).isSome := by
  obtain ⟨b, hb, hsane, hquiet, -⟩ := h.call (e := .destroySignal s) rfl
    (by simpa [Sigslot.enabled] using hs) trivial
  refine ⟨b, hb, hsane, hquiet.firing, hquiet.fault, hquiet.hist, ?_⟩
  have hdisconnect : Fallible.Ends (a.disconnectAll s)
      (fun q => (∀ t, t ≠ s → q.signals t = a.signals t) ∧
        ∀ d, (q.slots d).isSome = (a.slots d).isSome) (fun _ => True) := by
    refine ((a.aliveSignal_ends s).mono (fun _ hs => hs) fun _ _ => trivial).bind fun sig hs => ?_
    refine (Fallible.Ends.foldlM (I := fun _ q => q.signals = a.signals ∧
      ∀ d, (q.slots d).isSome = (a.slots d).isSome) ?_ ⟨rfl, fun _ => rfl⟩).bind ?_
    · rintro it its q ⟨hsignals, hslots⟩
      refine (q.signalDisconnect_ends it.dest s).mono ?_ fun _ _ => trivial
      rintro _ ⟨x, hx, rfl⟩
      refine ⟨hsignals, fun d => ?_⟩
      rw [← hslots d]
      by_cases hd : d = it.dest
      · simp [Sigslot.setSlots, hd, hx]
      · simp [Sigslot.setSlots, hd]
    · rintro q ⟨hsignals, hslots⟩
      refine Fallible.ends_pure.mpr ⟨fun t ht => ?_, hslots⟩
      simp [Sigslot.setSignal, ht, hsignals]
  have hends : Fallible.Ends (a.apply (.destroySignal s)) (fun b => b.signals s = none ∧
      (∀ t, t ≠ s → b.signals t = a.signals t) ∧ ∀ d, (b.slots d).isSome = (a.slots d).isSome)
      (fun _ => True) := by
    refine hdisconnect.bind fun q hq => Fallible.ends_pure.mpr ?_
    refine ⟨by simp [Sigslot.setSignal], fun t ht => ?_, hq.2⟩
    simpa [Sigslot.setSignal, ht] using hq.1 t ht
  exact hends.1 b hb

theorem delete_spec (h : Sane a) {o : Owner} (hnodup : o.socket.signals.Nodup)
    (hsocket : ∀ s ∈ o.socket.signals, (a.signals s).isSome = true)
    (hslots : (a.slots o.slots).isSome = true) {e : Sigslot.Emission} (hf : a.firing = [e])
    (he : e.signal = o.socket.signalClose) :
    ∃ b, o.delete.foldlM Sigslot.apply a = .ok b ∧ b.firing = [e] ∧ b.fault = a.fault ∧
      b.hist = a.hist ∧ b.signals e.signal = none := by
  obtain ⟨hrc, hrl, hcl⟩ := PacketSocket.signals_nodup.mp hnodup
  have hread := hsocket o.socket.signalReadPacket (by simp [PacketSocket.signals])
  have hconnect := hsocket o.socket.signalConnect (by simp [PacketSocket.signals])
  have hclose := hsocket o.socket.signalClose (by simp [PacketSocket.signals])
  obtain ⟨b, hb, hsb, hfb, hfaultb, hhistb, hgone, hkeptb, hslotsb⟩ := destroySignal_spec h hclose
  obtain ⟨c, hc, hsc, hfc, hfaultc, hhistc, -, hkeptc, hslotsc⟩ :=
    destroySignal_spec hsb (by rwa [hkeptb _ hcl])
  obtain ⟨d, hd, hsd, hfd, hfaultd, hhistd, -, hkeptd, hslotsd⟩ :=
    destroySignal_spec hsc (by rwa [hkeptc _ hrc, hkeptb _ hrl])
  have halive : d.enabled (.destroySlots o.slots) = true := by
    simp only [Sigslot.enabled, hslotsd, hslotsc, hslotsb, hslots]
  obtain ⟨q, hq, -, hquiet, -⟩ := hsd.call (e := .destroySlots o.slots) rfl halive trivial
  have hfiring : d.firing = [e] := by rw [hfd, hfc, hfb, hf]
  have hnone : d.signals e.signal = none := by
    rw [he, hkeptd _ (Ne.symm hrl), hkeptc _ (Ne.symm hcl)]
    exact hgone
  refine ⟨q, ?_, hquiet.firing.trans hfiring, ?_, ?_, ?_⟩
  · simp only [Owner.delete, List.foldlM_cons, List.foldlM_nil, hb]
    simp only [bind, Except.bind, hc, hd, hq]
    rfl
  · rw [hquiet.fault, hfaultd, hfaultc, hfaultb]
  · rw [hquiet.hist, hhistd, hhistc, hhistb]
  · cases hsig : q.signals e.signal with
    | none => rfl
    | some sig =>
      rcases hquiet.signals _ _ hsig with ⟨sig', hs', -⟩ | ⟨hlow, -⟩
      · simp [hnone] at hs'
      · have hbuilt := hsd.firing.built e (by simp [hfiring])
        omega

end Objects

/-! ### The thread -/

variable {p q : TcpSignals} {b : Sigslot Method}

def wires (p : TcpSignals) : List Wire :=
  p.owners.flatMap Owner.wires ++ p.listener.toList.map Listener.wire

/-- A socket that nothing is connected to. -/
structure Free (a : Sigslot Method) (socket : PacketSocket) : Prop where
  nodup : socket.signals.Nodup
  free : ∀ s ∈ socket.signals, targets a s = some []

/-- Each signal that a program uses is connected to one slot, and nothing is deleted. -/
structure Wired (p : TcpSignals) : Prop where
  sane : Sigslot.Sane p.objects
  fault : p.objects.fault = none
  wires : ∀ w ∈ p.wires, targets p.objects w.signal = some [(w.slots, w.method)] ∧
    (p.objects.slots w.slots).isSome = true
  sockets : ∀ o ∈ p.owners, o.socket.signals.Nodup ∧
    (∀ s ∈ o.socket.signals, (p.objects.signals s).isSome = true) ∧
    (p.objects.slots o.slots).isSome = true
  owners : (p.owners.map Owner.slots).Nodup
  silent : ∀ c ∈ p.objects.hist, c.method ≠ .onClose

/-- Where the thread is. -/
inductive Phase (p : TcpSignals) : Prop
  | idle (hf : p.objects.firing = [])
  | emits {e : Sigslot.Emission} {w : Wire} (hf : p.objects.firing = [e]) (hw : w ∈ p.wires)
      (he : e.signal = w.signal)
      (hnew : w.method = .onNewConnection → (cursor p.objects w.signal).isSome = true →
        ∃ socket, p.accepted = some socket ∧ Free p.objects socket)

theorem perform_ok {es : List (Sigslot.Event Method)}
    (h : es.foldlM Sigslot.apply p.objects = .ok b) : p.perform es = { p with objects := b } := by
  rw [perform, h]

theorem perform_singleton {e : Sigslot.Event Method} (h : p.objects.apply e = .ok b) :
    p.perform [e] = { p with objects := b } := by
  apply perform_ok
  rw [List.foldlM_cons, h]
  rfl

theorem Wired.moved (h : Wired p) (hb : Moved p.objects b)
    (hsilent : ∀ c ∈ b.hist, c.method ≠ .onClose) (accepted : Option PacketSocket) :
    Wired { p with objects := b, accepted } where
  sane := hb.sane
  fault := hb.fault.trans h.fault
  wires w hw := by
    simp only [hb.targets, hb.slots]
    exact h.wires w hw
  sockets o ho := by
    obtain ⟨hnodup, halive, hslots⟩ := h.sockets o ho
    exact ⟨hnodup, fun s hs => hb.alive (halive s hs), by rwa [hb.slots]⟩
  owners := h.owners
  silent := hsilent

theorem Wired.extended (h : Wired p) {touched : List ℕ} (hb : Extends touched p.objects b)
    (hfree : ∀ s ∈ touched, targets p.objects s = some []) (accepted : Option PacketSocket) :
    Wired { p with objects := b, accepted } where
  sane := hb.sane
  fault := hb.fault.trans h.fault
  wires w hw := by
    obtain ⟨htargets, hslots⟩ := h.wires w hw
    refine ⟨hb.targets_eq (fun hmem => ?_) htargets, hb.slots _ hslots⟩
    simp [hfree _ hmem] at htargets
  sockets o ho := by
    obtain ⟨hnodup, halive, hslots⟩ := h.sockets o ho
    exact ⟨hnodup, fun s hs => hb.alive s (halive s hs), hb.slots _ hslots⟩
  owners := h.owners
  silent c hc := h.silent c (hb.hist ▸ hc)

theorem newOwner_spec (h : Wired p) {socket : PacketSocket} (hs : Free p.objects socket)
    (kind : Kind) : ∃ b, p.newOwner kind socket = { p with
        objects := b
        owners := p.owners ++ [⟨kind, p.objects.builtSlots, socket⟩] } ∧
      Extends socket.signals p.objects b ∧ Wired (p.newOwner kind socket) := by
  obtain ⟨b, hb, hext, hslots, hall⟩ := construct_spec h.sane
    (o := ⟨kind, p.objects.builtSlots, socket⟩) rfl hs.nodup hs.free
  have hnew : p.newOwner kind socket = { p with
      objects := b
      owners := p.owners ++ [⟨kind, p.objects.builtSlots, socket⟩] } := by
    rw [newOwner, perform_ok hb]
  refine ⟨b, hnew, hext, ?_⟩
  have hold : Wired { p with objects := b } := h.extended hext hs.free p.accepted
  rw [hnew]
  refine ⟨hold.sane, hold.fault, fun w hw => ?_, fun o ho => ?_, ?_, hold.silent⟩
  · simp only [TcpSignals.wires, List.flatMap_append, List.mem_append, List.flatMap_cons,
      List.flatMap_nil, List.append_nil] at hw
    rcases hw with (hw | hw) | hw
    · exact hold.wires w (List.mem_append_left _ hw)
    · exact ⟨hall w hw, by rwa [Owner.wires_slots hw]⟩
    · exact hold.wires w (List.mem_append_right _ hw)
  · rcases List.mem_append.mp ho with ho | ho
    · exact hold.sockets o ho
    · obtain rfl := List.mem_singleton.mp ho
      exact ⟨hs.nodup, fun s hs' => hext.alive s (isSome_of_targets (hs.free s hs')), hslots⟩
  · simp only [List.map_append, List.map_cons, List.map_nil]
    refine List.nodup_append.mpr ⟨h.owners, List.nodup_singleton _, ?_⟩
    intro d hd d' hd' heq
    obtain ⟨o, ho, rfl⟩ := List.mem_map.mp hd
    obtain ⟨x, hx⟩ := Option.isSome_iff_exists.mp (h.sockets o ho).2.2
    have hlt := h.sane.known.built _ x hx
    rw [List.mem_singleton.mp hd'] at heq
    omega

theorem nextSocket_free (h : Sigslot.Sane p.objects) :
    ∃ b, newSocket.foldlM Sigslot.apply p.objects = .ok b ∧ Extends [] p.objects b ∧
      Free b p.nextSocket := by
  obtain ⟨b, hb, hext, hfree⟩ := newSocket_spec h
  refine ⟨b, hb, hext, ?_, ?_⟩
  · refine PacketSocket.signals_nodup.mpr ⟨?_, ?_, ?_⟩ <;> simp only [nextSocket] <;> omega
  · simp only [PacketSocket.signals, nextSocket, List.mem_cons, List.not_mem_nil, or_false,
      forall_eq_or_imp, forall_eq]
    exact ⟨hfree 0 (by omega), hfree 1 (by omega), hfree 2 (by omega)⟩

/-- A turn of the loop ends the emission or calls the one slot of its signal. -/
theorem step_turn (h : Wired p) {e : Sigslot.Emission} {w : Wire} (hf : p.objects.firing = [e])
    (hw : w ∈ p.wires) (he : e.signal = w.signal) :
    (cursor p.objects w.signal = none ∧ Moved p.objects { p.objects with firing := [] } ∧
        p.step .turn = some { p with objects := { p.objects with firing := [] } }) ∨
      (cursor p.objects w.signal).isSome = true ∧ ∃ b e', Moved p.objects b ∧
        b.hist = p.objects.hist ++ [⟨w.signal, w.slots, w.method⟩] ∧ b.firing = [e'] ∧
        e'.signal = w.signal ∧ cursor b w.signal = none ∧
        p.step .turn = some ({ p with objects := b }.body ⟨w.signal, w.slots, w.method⟩) := by
  have hgo : p.objects.fault = none ∧ p.objects.firing ≠ [] := ⟨h.fault, by simp [hf]⟩
  have hl : targets p.objects e.signal = some [(w.slots, w.method)] := by
    rw [he]
    exact (h.wires w hw).1
  rw [← he]
  rcases turn_spec h.sane hf hl with ⟨hend, hmoved, hturn⟩ |
    ⟨hcur, b, e', hturn, hmoved, hhist, hf', he', hb⟩
  · refine .inl ⟨hend, hmoved, ?_⟩
    simp only [step, if_pos hgo, perform_singleton hturn, List.getElem?_length, Option.elim_none]
  · refine .inr ⟨hcur, b, e', hmoved, hhist, hf', he', hb, ?_⟩
    simp only [step, if_pos hgo, perform_singleton hturn, hhist, List.getElem?_concat_length,
      Option.elim_some]

theorem mem_wires_owner {w : Wire} (hw : w ∈ p.wires) (hm : w.method = .onClose) :
    ∃ o ∈ p.owners, w.slots = o.slots ∧ w.signal = o.socket.signalClose := by
  rcases List.mem_append.mp hw with hw | hw
  · obtain ⟨o, ho, hw⟩ := List.mem_flatMap.mp hw
    refine ⟨o, ho, Owner.wires_slots hw, ?_⟩
    cases hkind : o.kind <;> simp only [Owner.wires, hkind, List.mem_cons, List.not_mem_nil,
      or_false] at hw
    · rcases hw with rfl | rfl | rfl
      · cases hm
      · rfl
      · cases hm
    · rcases hw with rfl | rfl
      · cases hm
      · rfl
  · obtain ⟨l, -, rfl⟩ := List.mem_map.mp hw
    cases hm

theorem Wired.find_owner (h : Wired p) {o : Owner} (ho : o ∈ p.owners) :
    p.owners.find? (·.slots = o.slots) = some o := by
  cases hfind : p.owners.find? (·.slots = o.slots) with
  | none => simpa using List.find?_eq_none.mp hfind o ho
  | some o' =>
    have hslots : o'.slots = o.slots := by simpa using List.find?_some hfind
    rw [List.inj_on_of_nodup_map h.owners (List.mem_of_find?_eq_some hfind) ho hslots]

/-- `OnClose` has been called, and the signal that has called it is destroyed. -/
structure Doomed (p : TcpSignals) (c : Emitted Method) : Prop where
  called : c ∈ p.objects.hist
  closes : c.method = .onClose
  gone : p.objects.signals c.signal = none
  firing : ∃ e, p.objects.firing = [e] ∧ e.signal = c.signal
  fault : p.objects.fault = none ∨ p.objects.fault = some (.deadSignal c.signal)

theorem body_closes (h : Wired p) (hb : Moved p.objects b) {w : Wire} (hw : w ∈ p.wires)
    (hm : w.method = .onClose) {e : Sigslot.Emission} (hf : b.firing = [e])
    (he : e.signal = w.signal) (hc : ⟨w.signal, w.slots, w.method⟩ ∈ b.hist) :
    Doomed ({ p with objects := b }.body ⟨w.signal, w.slots, w.method⟩)
        ⟨w.signal, w.slots, w.method⟩ ∧
      ({ p with objects := b }.body ⟨w.signal, w.slots, w.method⟩).objects.fault = none ∧
      ({ p with objects := b }.body ⟨w.signal, w.slots, w.method⟩).objects.hist = b.hist := by
  obtain ⟨o, ho, hslots, hclose⟩ := mem_wires_owner hw hm
  obtain ⟨hnodup, halive, hown⟩ := h.sockets o ho
  have hsocket : ∀ s ∈ o.socket.signals, (b.signals s).isSome = true :=
    fun s hs => hb.alive (halive s hs)
  obtain ⟨d, hd, hfd, hfault, hhist, hgone⟩ := delete_spec hb.sane hnodup hsocket
    (by rwa [hb.slots]) hf (he.trans hclose)
  have hbody : { p with objects := b }.body ⟨w.signal, w.slots, w.method⟩ =
      { p with objects := d } := by
    simp only [body, hm, hslots, h.find_owner ho, Option.elim_some]
    exact perform_ok (p := { p with objects := b }) hd
  have hnone : d.fault = none := by rw [hfault, hb.fault, h.fault]
  rw [hbody]
  refine ⟨⟨?_, hm, ?_, ⟨e, hfd, he⟩, .inl hnone⟩, hnone, hhist⟩
  · show _ ∈ d.hist
    rwa [hhist]
  · show d.signals w.signal = none
    rwa [← he]

/-- What a slot other than `OnClose` does. -/
theorem body_wired (h : Wired p) (hb : Moved p.objects b) {w : Wire} (hw : w ∈ p.wires)
    (hm : w.method ≠ .onClose) {e : Sigslot.Emission} (hf : b.firing = [e])
    (hcur : cursor b w.signal = none)
    (hhist : b.hist = p.objects.hist ++ [⟨w.signal, w.slots, w.method⟩])
    (hnew : w.method = .onNewConnection →
      ∃ socket, p.accepted = some socket ∧ Free p.objects socket) :
    ∃ d owners, { p with objects := b }.body ⟨w.signal, w.slots, w.method⟩ =
        { p with objects := d, owners } ∧ Wired { p with objects := d, owners } ∧
      d.firing = [e] ∧ d.hist = b.hist ∧ cursor d w.signal = none ∧
      w ∈ ({ p with objects := d, owners } : TcpSignals).wires ∧
      (w.method = .onNewConnection → ∃ o, owners = p.owners ++ [o] ∧ o.kind = .echo ∧
        some o.socket = p.accepted) := by
  have hsilent : ∀ c ∈ b.hist, c.method ≠ .onClose := by
    intro c hc
    rw [hhist] at hc
    rcases List.mem_append.mp hc with hc | hc
    · exact h.silent c hc
    · rw [List.mem_singleton.mp hc]
      exact hm
  have hwired : Wired { p with objects := b } := h.moved hb hsilent p.accepted
  cases hmethod : w.method with
  | onClose => exact absurd hmethod hm
  | onConnect | onMsg =>
    exact ⟨b, p.owners, rfl, hwired, hf, rfl, hcur, hw, fun hnone => by cases hnone⟩
  | onNewConnection =>
    obtain ⟨socket, haccepted, hfree⟩ := hnew hmethod
    have hfree' : Free b socket := ⟨hfree.nodup, fun s hs => by rw [hb.targets, hfree.free s hs]⟩
    obtain ⟨d, hd, hext, hdwired⟩ := newOwner_spec hwired hfree' .echo
    have hlistener : w.signal ∉ socket.signals := by
      intro hmem
      have htargets := (h.wires w hw).1
      simp [hfree.free _ hmem] at htargets
    have halive := isSome_of_targets (hwired.wires w hw).1
    have hbody : { p with objects := b }.body ⟨w.signal, w.slots, .onNewConnection⟩ =
        { p with objects := b }.newOwner .echo socket := by
      simp only [body, haccepted, Option.elim_some]
    refine ⟨d, _, hbody.trans hd, hd ▸ hdwired, hext.firing.trans hf, hext.hist,
      ?_, ?_, fun _ => ⟨_, rfl, rfl, haccepted.symm⟩⟩
    · rw [← hcur, cursor, cursor, hext.signals _ hlistener halive]
    · rcases List.mem_append.mp hw with hw | hw
      · exact List.mem_append_left _ (by simp [hw])
      · exact List.mem_append_right _ hw

/-- `emit` goes on. -/
theorem doomed_turn {c : Emitted Method} (h : Doomed p c) (hfault : p.objects.fault = none) :
    p.step .turn = some { p with objects := { p.objects with
      fault := some (.deadSignal c.signal) } } := by
  obtain ⟨f, hf, hsignal⟩ := h.firing
  have hgo : p.objects.fault = none ∧ p.objects.firing ≠ [] := ⟨hfault, by simp [hf]⟩
  have hturn : [Sigslot.Event.turn].foldlM Sigslot.apply p.objects =
      .error (.deadSignal c.signal) := by
    simp only [List.foldlM_cons, Sigslot.apply, Sigslot.turn, hf, Sigslot.aliveSignal, hsignal,
      h.gone]
    rfl
  have hperform : p.perform [.turn] = { p with objects := { p.objects with
      fault := some (.deadSignal c.signal) } } := by
    rw [perform, hturn]
  simp only [step, if_pos hgo, hperform, List.getElem?_length, Option.elim_none]

theorem doomed_step {c : Emitted Method} (h : Doomed p c) {e : Event} (he : p.step e = some q) :
    Doomed q c := by
  obtain ⟨f, hf, hsignal⟩ := h.firing
  have hbusy : ¬ p.Idle := fun hidle => by simp [hidle.2] at hf
  cases e with
  | newClient => simp [step, hbusy] at he
  | listen => simp [step, hbusy] at he
  | accept => simp [step, hbusy] at he
  | fires i k => simp [step, hbusy] at he
  | turn =>
    have hfault : p.objects.fault = none := by
      by_contra hnone
      simp [step, hnone] at he
    obtain rfl := Option.some.inj ((doomed_turn h hfault).symm.trans he)
    exact ⟨h.called, h.closes, h.gone, h.firing, .inr rfl⟩

theorem mem_wires {i k : ℕ} {o : Owner} {w : Wire} (ho : p.owners[i]? = some o)
    (hw : o.wires[k]? = some w) : w ∈ p.wires :=
  List.mem_append_left _ (List.mem_flatMap_of_mem (List.mem_of_getElem? ho)
    (List.mem_of_getElem? hw))

theorem fires_spec (h : Wired p) (hidle : p.Idle) {i k : ℕ} {o : Owner} {w : Wire}
    (ho : p.owners[i]? = some o) (hw : o.wires[k]? = some w) :
    ∃ b e, p.step (.fires i k) = some { p with objects := b } ∧ Moved p.objects b ∧
      b.hist = p.objects.hist ∧ b.firing = [e] ∧ e.signal = w.signal ∧
      (cursor b w.signal).isSome = true := by
  have htargets := (h.wires w (mem_wires ho hw)).1
  have halive := isSome_of_targets htargets
  obtain ⟨b, e, hb, hmoved, hhist, hf, he, hcur⟩ := emit_spec h.sane htargets
  refine ⟨b, e, ?_, hmoved, hhist, by rw [hf, hidle.2], he, hcur⟩
  simp only [step, ho, hw, Option.bind_some, if_pos (And.intro hidle halive),
    perform_singleton hb]

theorem accept_spec (h : Wired p) (hidle : p.Idle) {l : Listener} (hl : p.listener = some l) :
    ∃ b e, p.step .accept = some { p with objects := b, accepted := some p.nextSocket } ∧
      Wired { p with objects := b, accepted := some p.nextSocket } ∧
      b.hist = p.objects.hist ∧ b.firing = [e] ∧ e.signal = l.signalNewConnection ∧
      (cursor b l.signalNewConnection).isSome = true ∧ Free b p.nextSocket := by
  have hmem : l.wire ∈ p.wires := List.mem_append_right _ (by simp [hl])
  obtain ⟨a, ha, hext, hfree⟩ := nextSocket_free h.sane
  have hwired : Wired { p with objects := a } := h.extended hext (by simp) p.accepted
  obtain ⟨b, e, hb, hmoved, hhist, hf, he, hcur⟩ :=
    emit_spec hext.sane (hwired.wires l.wire hmem).1
  have hrun : (newSocket ++ [Sigslot.Event.emit l.signalNewConnection]).foldlM Sigslot.apply
      p.objects = .ok b := by
    rw [List.foldlM_append, ha]
    simp only [bind, Except.bind, List.foldlM_cons]
    exact congrArg (· >>= _) hb
  have hsilent : ∀ c ∈ b.hist, c.method ≠ .onClose := by
    rw [hhist, hext.hist]
    exact h.silent
  refine ⟨b, e, ?_, hwired.moved hmoved hsilent (some p.nextSocket), hhist.trans hext.hist, ?_, he,
    hcur, hfree.nodup, fun s hs => ?_⟩
  · simp only [step, hl, Option.bind_some, if_pos hidle, perform_ok hrun]
  · rw [hf, hext.firing, hidle.2]
  · rw [hmoved.targets, hfree.free s hs]

theorem newClient_spec (h : Wired p) (hidle : p.Idle) :
    Wired ((p.perform newSocket).newOwner .client p.nextSocket) ∧
      ((p.perform newSocket).newOwner .client p.nextSocket).objects.firing = [] := by
  obtain ⟨b, hb, hext, hfree⟩ := nextSocket_free h.sane
  rw [perform_ok hb]
  have hwired : Wired { p with objects := b } := h.extended hext (by simp) p.accepted
  obtain ⟨d, hd, hext', hwired'⟩ := newOwner_spec hwired hfree .client
  refine ⟨hwired', ?_⟩
  rw [hd]
  show d.firing = []
  rw [hext'.firing]
  exact hext.firing.trans hidle.2

theorem listen_spec (h : Wired p) (hidle : p.Idle) {l : Listener}
    (hs : l = ⟨p.objects.builtSignals, p.objects.builtSlots⟩) :
    Wired { p.perform [.newSignal, .newSlots, l.wire.connect] with listener := some l } ∧
      (p.perform [.newSignal, .newSlots, l.wire.connect]).objects.firing = [] := by
  obtain ⟨hext₁, hnew⟩ := newSignal_spec h.sane
  obtain ⟨hext₂, hslots⟩ := newSlots_spec hext₁.sane
  have hfree : targets p.objects.newSignal.newSlots l.wire.signal = some [] := by
    rw [hs]
    exact hext₂.targets_eq (by simp) hnew
  obtain ⟨b, hb, hext₃, hall⟩ := connect_spec hext₂.sane hfree (by rw [hs]; exact hslots)
  have hrun : [.newSignal, .newSlots, l.wire.connect].foldlM Sigslot.apply p.objects = .ok b := by
    simp only [List.foldlM_cons, List.foldlM_nil]
    exact congrArg (· >>= pure) hb
  have hold : Wired { p with objects := p.objects.newSignal.newSlots } :=
    h.extended (hext₁.trans hext₂) (by simp) p.accepted
  have hwired : Wired { p with objects := b } :=
    hold.extended (p := { p with objects := p.objects.newSignal.newSlots }) hext₃
      (by simpa using hfree) p.accepted
  rw [perform_ok hrun]
  refine ⟨⟨hwired.sane, hwired.fault, fun w hw => ?_, hwired.sockets, hwired.owners,
    hwired.silent⟩, ?_⟩
  · rcases List.mem_append.mp hw with hw | hw
    · exact hwired.wires w (List.mem_append_left _ hw)
    · obtain rfl : w = l.wire := by simpa using hw
      refine ⟨hall, hext₃.slots _ ?_⟩
      rw [hs]
      exact hslots
  · show b.firing = []
    rw [hext₃.firing]
    exact hidle.2

theorem wired_step (h : Wired p) (hphase : Phase p) {e : Event} (he : p.step e = some q) :
    Wired q ∧ Phase q ∨ ∃ c, Doomed q c := by
  cases e with
  | newClient =>
    simp only [step] at he
    split_ifs at he with hidle
    obtain rfl := Option.some.inj he
    obtain ⟨hwired, hf⟩ := newClient_spec h hidle
    exact .inl ⟨hwired, .idle hf⟩
  | listen =>
    simp only [step] at he
    split_ifs at he with hgo
    obtain rfl := Option.some.inj he
    obtain ⟨hwired, hf⟩ := listen_spec h hgo.1 rfl
    exact .inl ⟨hwired, .idle hf⟩
  | accept =>
    obtain ⟨l, hl, hgo⟩ := Option.bind_eq_some_iff.mp he
    split_ifs at hgo with hidle
    obtain ⟨b, f, hb, hwired, -, hf, hsignal, -, hfree⟩ := accept_spec h hidle hl
    obtain rfl := Option.some.inj (hb.symm.trans he)
    have hmem : l.wire ∈ p.wires := List.mem_append_right _ (by simp [hl])
    exact .inl ⟨hwired, .emits hf hmem hsignal fun _ _ => ⟨_, rfl, hfree⟩⟩
  | fires i k =>
    obtain ⟨w, hw, hgo⟩ := Option.bind_eq_some_iff.mp he
    obtain ⟨o, ho, hw⟩ := Option.bind_eq_some_iff.mp hw
    split_ifs at hgo with hidle
    obtain ⟨b, f, hb, hmoved, hhist, hf, hsignal, -⟩ := fires_spec h hidle.1 ho hw
    obtain rfl := Option.some.inj (hb.symm.trans he)
    have hwired := h.moved hmoved (hhist ▸ h.silent) p.accepted
    refine .inl ⟨hwired, .emits hf (mem_wires ho hw) hsignal fun hnew _ => ?_⟩
    exact absurd hnew (Owner.wires_method (List.mem_of_getElem? hw))
  | turn =>
    cases hphase with
    | idle hf => simp [step, hf] at he
    | @emits f w hf hw hsignal hnew =>
      rcases step_turn h hf hw hsignal with ⟨-, hmoved, hstep⟩ |
        ⟨hcur, b, f', hmoved, hhist, hf', hsignal', hend, hstep⟩
      · obtain rfl := Option.some.inj (hstep.symm.trans he)
        exact .inl ⟨h.moved hmoved h.silent p.accepted, .idle rfl⟩
      · obtain rfl := Option.some.inj (hstep.symm.trans he)
        by_cases hm : w.method = .onClose
        · obtain ⟨hdoomed, -⟩ := body_closes h hmoved hw hm hf' hsignal' (by simp [hhist])
          exact .inr ⟨_, hdoomed⟩
        · obtain ⟨d, owners, hbody, hwired, hfd, -, hcurd, hwd, -⟩ :=
            body_wired h hmoved hw hm hf' hend hhist fun hmethod => hnew hmethod hcur
          rw [hbody]
          exact .inl ⟨hwired, .emits hfd hwd hsignal' fun _ hsome => by simp [hcurd] at hsome⟩

theorem wired_start : Wired {} :=
  ⟨Sigslot.sane_start, rfl, by simp [wires], by simp, by simp, by simp⟩

theorem wired_reachable (h : system.Reachable p) : Wired p ∧ Phase p ∨ ∃ c, Doomed p c := by
  apply h.invariant (I := fun p => Wired p ∧ Phase p ∨ ∃ c, Doomed p c)
  · rintro _ rfl
    exact .inl ⟨wired_start, .idle rfl⟩
  · intro a e b he ha
    rcases ha with ⟨hwired, hphase⟩ | ⟨c, hdoomed⟩
    · exact wired_step hwired hphase he
    · exact .inr ⟨c, doomed_step hdoomed he⟩

/-! ### Runs -/

theorem exec_three {r t : TcpSignals} {e₁ e₂ e₃ : Event} (h₁ : p.step e₁ = some q)
    (h₂ : q.step e₂ = some r) (h₃ : r.step e₃ = some t) : system.exec p [e₁, e₂, e₃] = some t := by
  simp only [EventSystem.exec_cons_eq_some, EventSystem.exec_nil]
  exact ⟨q, h₁, r, h₂, t, h₃, rfl⟩

/-- Nothing that is destroyed was touched, and no signal that fires is destroyed. -/
def Whole (p : TcpSignals) : Prop :=
  p.objects.fault = none ∧ ∀ e ∈ p.objects.firing, (p.objects.signals e.signal).isSome = true

/-- Client and server stay clear of what is destroyed as long as no `OnClose` is called,
and not longer. -/
theorem whole_iff (h : system.Reachable p) :
    p.Whole ↔ ∀ c ∈ p.objects.hist, c.method ≠ .onClose := by
  rcases wired_reachable h with ⟨hwired, hphase⟩ | ⟨c, hdoomed⟩
  · refine iff_of_true ⟨hwired.fault, fun e he => ?_⟩ hwired.silent
    cases hphase with
    | idle hf => simp [hf] at he
    | @emits f w hf hw hsignal =>
      obtain rfl : e = f := by simpa [hf] using he
      rw [hsignal]
      exact isSome_of_targets (hwired.wires w hw).1
  · obtain ⟨e, hf, hsignal⟩ := hdoomed.firing
    refine iff_of_false (fun hwhole => ?_) fun hsilent => hsilent c hdoomed.called hdoomed.closes
    have halive := hwhole.2 e (by simp [hf])
    simp [hsignal, hdoomed.gone] at halive

theorem whole_iff_closed : ∃ p,
    system.exec {} [.newClient, .newClient, .fires 0 1, .turn] = some p ∧
    p.objects.hist = [⟨2, 0, .onClose⟩] ∧ ¬ p.Whole := by
  refine ⟨_, rfl, rfl, fun hwhole => ?_⟩
  have hsilent := (whole_iff ⟨{}, [.newClient, .newClient, .fires 0 1, .turn], rfl, rfl⟩).mp hwhole
  exact hsilent ⟨2, 0, .onClose⟩ (List.mem_singleton_self _) rfl

/-- An emission that has begun calls the one slot of its signal and returns, or goes on in
a signal that is destroyed. -/
theorem emission_spec (h : Wired p) {e : Sigslot.Emission} {w : Wire}
    (hf : p.objects.firing = [e]) (hw : w ∈ p.wires) (he : e.signal = w.signal)
    (hcur : (cursor p.objects w.signal).isSome = true)
    (hnew : w.method = .onNewConnection →
      ∃ socket, p.accepted = some socket ∧ Free p.objects socket) :
    ∃ r q, p.step .turn = some r ∧ r.step .turn = some q ∧
      q.objects.hist = p.objects.hist ++ [⟨w.signal, w.slots, w.method⟩] ∧
      (w.method = .onClose → q.objects.fault = some (.deadSignal w.signal)) ∧
      (w.method ≠ .onClose → q.Idle) ∧
      (w.method = .onNewConnection → ∃ o, q.owners = p.owners ++ [o] ∧ o.kind = .echo ∧
        some o.socket = p.accepted) := by
  rcases step_turn h hf hw he with ⟨hend, -⟩ | ⟨-, b, e', hmoved, hhist, hf', he', hend, hturn⟩
  · simp [hend] at hcur
  · by_cases hm : w.method = .onClose
    · obtain ⟨hdoomed, hfault, hsame⟩ := body_closes h hmoved hw hm hf' he' (by simp [hhist])
      exact ⟨_, _, hturn, doomed_turn hdoomed hfault, hsame.trans hhist, fun _ => rfl,
        fun hne => absurd hm hne, fun hnc => by simp [hm] at hnc⟩
    · obtain ⟨d, owners, hbody, hwired, hfd, hhistd, hcurd, hwd, howners⟩ :=
        body_wired h hmoved hw hm hf' hend hhist hnew
      rw [hbody] at hturn
      rcases step_turn hwired hfd hwd he' with ⟨-, hmovedd, hreturn⟩ | ⟨hsome, -⟩
      · exact ⟨_, _, hturn, hreturn, hhistd.trans hhist, fun hc => absurd hc hm,
          fun _ => ⟨hmovedd.fault.trans hwired.fault, rfl⟩, howners⟩
      · simp [hcurd] at hsome

theorem wired_idle (h : system.Reachable p) (hidle : p.Idle) : Wired p := by
  rcases wired_reachable h with ⟨hwired, -⟩ | ⟨c, hdoomed⟩
  · exact hwired
  · obtain ⟨e, hf, -⟩ := hdoomed.firing
    simp [hidle.2] at hf

/-- From every state in which the thread waits, a signal that a socket fires calls the one
object that owns the socket, once. If that is `OnClose`, `emit` goes on in a signal that
is destroyed. -/
theorem fires_calls (h : system.Reachable p) (hidle : p.Idle) {i k : ℕ} {o : Owner} {w : Wire}
    (ho : p.owners[i]? = some o) (hw : o.wires[k]? = some w) :
    ∃ q, system.exec p [.fires i k, .turn, .turn] = some q ∧
      q.objects.hist = p.objects.hist ++ [⟨w.signal, o.slots, w.method⟩] ∧
      if w.method = .onClose then q.objects.fault = some (.deadSignal w.signal) else q.Idle := by
  have hwired := wired_idle h hidle
  obtain ⟨a, e, hfires, hmoved, hhist, hf, he, hcur⟩ := fires_spec hwired hidle ho hw
  have hnew : w.method ≠ .onNewConnection := Owner.wires_method (List.mem_of_getElem? hw)
  obtain ⟨r, q, hcall, hreturn, hhist', hclose, hother, -⟩ :=
    emission_spec (hwired.moved hmoved (hhist ▸ hwired.silent) p.accepted) hf (mem_wires ho hw) he
      hcur fun hmethod => absurd hmethod hnew
  refine ⟨q, exec_three hfires hcall hreturn, ?_, ?_⟩
  · rw [hhist', hhist, Owner.wires_slots (List.mem_of_getElem? hw)]
  · split_ifs with hm
    · exact hclose hm
    · exact hother hm

theorem fires_calls_closed : ∃ p q,
    system.exec {} [.newClient, .newClient, .fires 1 2, .turn, .turn] = some p ∧
    system.exec p [.fires 0 1, .turn, .turn] = some q ∧
    q.objects.hist = p.objects.hist ++ [⟨2, 0, .onClose⟩] ∧
    q.objects.fault = some (.deadSignal 2) := by
  refine ⟨_, _, rfl, rfl, ?_⟩
  obtain ⟨q, hq, hhist, hfault⟩ := fires_calls (i := 0) (k := 1)
    ⟨{}, [.newClient, .newClient, .fires 1 2, .turn, .turn], rfl, rfl⟩ ⟨rfl, rfl⟩ rfl rfl
  exact Option.some.inj hq ▸ ⟨hhist, hfault⟩

/-- Each connection that the listening socket accepts gets one `Echo`, and the thread
waits again. -/
theorem accept_calls (h : system.Reachable p) (hidle : p.Idle) {l : Listener}
    (hl : p.listener = some l) : ∃ q o, system.exec p [.accept, .turn, .turn] = some q ∧
      q.objects.hist = p.objects.hist ++
        [⟨l.signalNewConnection, l.tcpConnection, .onNewConnection⟩] ∧
      q.owners = p.owners ++ [o] ∧ o.kind = .echo ∧ o.socket = p.nextSocket ∧ q.Idle := by
  have hmem : l.wire ∈ p.wires := List.mem_append_right _ (by simp [hl])
  obtain ⟨a, e, haccept, hwired, hhist, hf, he, hcur, hfree⟩ :=
    accept_spec (wired_idle h hidle) hidle hl
  obtain ⟨r, q, hcall, hreturn, hhist', -, hother, howners⟩ :=
    emission_spec hwired hf hmem he hcur fun _ => ⟨_, rfl, hfree⟩
  obtain ⟨o, ho, hkind, hsocket⟩ := howners rfl
  refine ⟨q, o, exec_three haccept hcall hreturn, ?_, ho, hkind, Option.some.inj hsocket,
    hother fun hm => by cases hm⟩
  rw [hhist']
  exact congrArg (· ++ _) hhist

theorem accept_calls_second : ∃ p q o,
    system.exec {} [.listen, .accept, .turn, .turn] = some p ∧
    system.exec p [.accept, .turn, .turn] = some q ∧
    q.objects.hist = p.objects.hist ++ [⟨0, 0, .onNewConnection⟩] ∧
    q.owners = p.owners ++ [o] ∧ o.kind = .echo ∧ o.socket = p.nextSocket ∧ q.Idle := by
  obtain ⟨q, o, h⟩ := accept_calls (l := ⟨0, 0⟩)
    ⟨{}, [.listen, .accept, .turn, .turn], rfl, rfl⟩ ⟨rfl, rfl⟩ rfl
  exact ⟨_, q, o, rfl, h⟩

end TcpSignals
end WebrtcNativeDemo
