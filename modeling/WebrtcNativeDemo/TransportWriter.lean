import WebrtcNativeDemo.Library.FifoSender
import WebrtcNativeDemo.TransportSteps

/-!
# The sending side of the transport

`SendMsg`, `SendDataInner` and `OnWrite` refine the first-in first-out sender:
every step of the transport is a sequence of its steps. The order of the messages,
the single writer and the reason why a failed write is never made up for are then
read off the abstract sender.
-/

namespace WebrtcNativeDemo.WebsocketTransport

@[simp] def Output.misuse : Output → Option Output
  | .emptyAccess => some .emptyAccess
  | _ => none

structure SendView where
  accepted : List Msg
  handed : List Msg
  popped : List Msg
  written : List Msg
  failed : List Msg
  misuses : List Output
  queue : List Msg
  pending : List Msg
  writes : List Msg
  allocated : ℕ

def sendView (t : WebsocketTransport) : SendView where
  accepted := accepted t.hist
  handed := handed t.hist
  popped := popped t.hist
  written := written t.hist
  failed := failedWrites t.hist
  misuses := seen Output.misuse t.hist
  queue := t.sendMsgQueue
  pending := pending t.posted
  writes := t.writes.map Write.msg
  allocated := t.allocated

structure Sends (v : SendView) (s : FifoSender Msg) : Prop where
  accepted_eq : v.accepted = s.accepted
  handed_eq : v.handed = s.handed
  popped_eq : v.popped = s.popped
  written_eq : v.written = s.popped
  failed_iff : s.failed = true ↔ v.failed ≠ []
  misuses_eq : v.misuses = []
  queue_eq : v.queue = s.queue
  pending_eq : v.pending = s.pending
  writes_eq : v.writes = s.flight.toList
  addr_eq : v.accepted.map Msg.addr = List.range v.allocated

variable {t t' : WebsocketTransport} {s : FifoSender Msg}

theorem sends_fresh (h : Fresh t) : Sends (sendView t) FifoSender.empty := by
  obtain ⟨host, port, subprotocol, c, m, rfl⟩ := fresh_eq h
  constructor <;> simp [sendView, create]

theorem postSend_sends (h : Sends (sendView t) s) (msg : String) :
    Sends (sendView (t.postSend msg)) (s.post ⟨t.allocated, msg⟩) where
  accepted_eq := by simpa [sendView, postSend] using h.accepted_eq
  handed_eq := by simpa [sendView, postSend, FifoSender.handed] using h.handed_eq
  popped_eq := by simpa [sendView, postSend] using h.popped_eq
  written_eq := by simpa [sendView, postSend] using h.written_eq
  failed_iff := by simpa [sendView, postSend] using h.failed_iff
  misuses_eq := by simpa [sendView, postSend] using h.misuses_eq
  queue_eq := by simpa [sendView, postSend] using h.queue_eq
  pending_eq := by simpa [sendView, postSend] using h.pending_eq
  writes_eq := by simpa [sendView, postSend, FifoSender.flight] using h.writes_eq
  addr_eq := by
    have haddr : (accepted t.hist).map Msg.addr = List.range t.allocated := h.addr_eq
    simp [sendView, postSend, haddr, List.range_succ]

theorem act_sends (h : Sends (sendView t) s) (c : Call) :
    ∃ s', FifoSender.Steps s s' ∧ Sends (sendView (t.act c)) s' := by
  cases c with
  | sendMsg msg => exact ⟨_, .single (.post s _), postSend_sends h msg⟩
  | connect =>
    have hv : sendView t.startResolve = sendView t := by
      simp [sendView, startResolve, asyncResolve]
    exact ⟨s, .refl, hv ▸ h⟩
  | disconnect =>
    have hv : sendView t.postClose = sendView t := by
      simp [sendView, postClose]
    exact ⟨s, .refl, hv ▸ h⟩

theorem refuse_view (t : WebsocketTransport) (c : Call) : sendView (t.refuse c) = sendView t := by
  cases c with
  | sendMsg msg => simp [sendView, refuse, output]
  | connect => rfl
  | disconnect => rfl

theorem call_sends (h : Sends (sendView t) s) (c : Call) :
    ∃ s', FifoSender.Steps s s' ∧ Sends (sendView (t.call c)) s' := by
  rw [call_eq]
  split_ifs
  · exact act_sends h c
  · exact ⟨s, .refl, refuse_view t c ▸ h⟩

theorem calls_sends (h : Sends (sendView t) s) (cs : List Call) :
    ∃ s', FifoSender.Steps s s' ∧ Sends (sendView (t.calls cs)) s' := by
  induction cs generalizing t s with
  | nil => exact ⟨s, .refl, h⟩
  | cons c cs ih =>
    obtain ⟨s₁, h₁, hs₁⟩ := call_sends h c
    obtain ⟨s₂, h₂, hs₂⟩ := ih hs₁
    exact ⟨s₂, h₁.trans h₂, hs₂⟩

theorem Sends.writing (h : Sends (sendView t) s) {i : ℕ} {w : Write} (hw : t.writes[i]? = some w) :
    t.writes = [w] ∧ i = 0 ∧ s.failed = false ∧ ∃ rest, s.queue = w.msg :: rest := by
  have hwrites : t.writes.map Write.msg = s.flight.toList := h.writes_eq
  rcases hf : s.flight with _ | a
  · rw [hf, Option.toList_none, List.map_eq_nil_iff] at hwrites
    simp [hwrites] at hw
  · rw [hf, Option.toList_some, List.map_eq_singleton_iff] at hwrites
    obtain ⟨w', hw', ha⟩ := hwrites
    obtain ⟨hfalse, rest, hq⟩ := FifoSender.flight_eq_some hf
    rw [hw'] at hw
    obtain ⟨hi, rfl⟩ := List.getElem?_eq_some_iff.mp hw
    obtain rfl : i = 0 := by simpa using hi
    exact ⟨hw', rfl, hfalse, rest, by rw [hq, ← ha]; rfl⟩

theorem onWrite_error_sends (h : Sends (sendView t) s) {i : ℕ} {w : Write}
    (hw : t.writes[i]? = some w) (ec : String) :
    ∃ s', FifoSender.Steps s s' ∧
      Sends (sendView ((t.writeCompletes i w (some ec)).onWrite (some ec))) s' := by
  obtain ⟨hwrites, rfl, -, rest, hq⟩ := h.writing hw
  have hne : s.queue ≠ [] := by simp [hq]
  refine ⟨s.nack hne, .single (.nack s hne), ?_⟩
  constructor
  · simpa [sendView, writeCompletes, onWrite, fail, output] using h.accepted_eq
  · simpa [sendView, writeCompletes, onWrite, fail, output, FifoSender.handed] using h.handed_eq
  · simpa [sendView, writeCompletes, onWrite, fail, output] using h.popped_eq
  · simpa [sendView, writeCompletes, onWrite, fail, output] using h.written_eq
  · simp [sendView, writeCompletes, onWrite, fail, output]
  · simpa [sendView, writeCompletes, onWrite, fail, output] using h.misuses_eq
  · simpa [sendView, writeCompletes, onWrite, fail, output] using h.queue_eq
  · simpa [sendView, writeCompletes, onWrite, fail, output] using h.pending_eq
  · simp [sendView, writeCompletes, onWrite, fail, output, hwrites, FifoSender.flight]
  · simpa [sendView, writeCompletes, onWrite, fail, output] using h.addr_eq

theorem onWrite_none_sends (h : Sends (sendView t) s) {i : ℕ} {w : Write}
    (hw : t.writes[i]? = some w) :
    ∃ s', FifoSender.Steps s s' ∧
      Sends (sendView ((t.writeCompletes i w none).onWrite none)) s' := by
  obtain ⟨hwrites, rfl, hfalse, rest, hq⟩ := h.writing hw
  have hne : s.queue ≠ [] := by simp [hq]
  obtain ⟨hpop, hrest⟩ := FifoSender.ack_eq hq hne hfalse
  have hqueue : t.sendMsgQueue = w.msg :: rest := h.queue_eq.trans hq
  have hhanded : handed t.hist = s.popped ++ [w.msg] := by
    have hh : handed t.hist = s.handed := h.handed_eq
    rw [hh, FifoSender.handed, hq]
    rfl
  refine ⟨s.ack hne hfalse, .single (.ack s hne hfalse), ?_⟩
  cases rest with
  | nil =>
    have hview : sendView ((t.writeCompletes 0 w none).onWrite none) =
        { sendView t with
          popped := popped t.hist ++ [w.msg]
          written := written t.hist ++ [w.msg]
          queue := []
          writes := [] } := by
      simp [sendView, writeCompletes, onWrite, eraseFront, output, hqueue, hwrites]
    rw [hview]
    constructor
    · exact h.accepted_eq
    · simpa [FifoSender.handed, hpop, hrest, sendView] using hhanded
    · rw [hpop, ← h.popped_eq]; rfl
    · rw [hpop, ← h.written_eq]; rfl
    · exact h.failed_iff
    · exact h.misuses_eq
    · exact hrest.symm
    · exact h.pending_eq
    · simp [FifoSender.flight, hrest]
    · exact h.addr_eq
  | cons data rest =>
    have hview : sendView ((t.writeCompletes 0 w none).onWrite none) =
        { sendView t with
          handed := handed t.hist ++ [data]
          popped := popped t.hist ++ [w.msg]
          written := written t.hist ++ [w.msg]
          queue := data :: rest
          writes := [data] } := by
      simp [sendView, writeCompletes, onWrite, eraseFront, writeFront, asyncWrite, output, hqueue,
        hwrites]
    rw [hview]
    constructor
    · exact h.accepted_eq
    · simp [FifoSender.handed, hpop, hrest, hhanded]
    · rw [hpop, ← h.popped_eq]; rfl
    · rw [hpop, ← h.written_eq]; rfl
    · exact h.failed_iff
    · exact h.misuses_eq
    · exact hrest.symm
    · exact h.pending_eq
    · simp [FifoSender.flight, hrest, hfalse]
    · exact h.addr_eq

/-- `SendDataInner` starts a write exactly when the queue was empty, and then none
is outstanding: a failed write would have left its message there. -/
theorem sendDataInner_sends (h : Sends (sendView t) s) {data : Msg} {rest : List Posted}
    (hp : t.posted = .sendDataInner data :: rest) :
    ∃ s', FifoSender.Steps s s' ∧
      Sends (sendView ({ t with posted := rest }.sendDataInner data)) s' := by
  have hpend : s.pending = data :: pending rest := by
    rw [← h.pending_eq]
    simp [sendView, hp]
  have hne : s.pending ≠ [] := by simp [hpend]
  obtain ⟨hq, hpend'⟩ := FifoSender.enqueue_eq hpend hne
  refine ⟨s.enqueue hne, .single (.enqueue s hne), ?_⟩
  have hqueue : t.sendMsgQueue = s.queue := h.queue_eq
  rcases hs : s.queue with _ | ⟨front, queue⟩
  · have hfalse : s.failed = false := by
      by_contra hf
      exact FifoSender.queue_ne_nil_of_failed (by simpa using hf) hs
    have hwrites : t.writes = [] := by
      have hw : t.writes.map Write.msg = s.flight.toList := h.writes_eq
      simpa [FifoSender.flight, hfalse, hs] using hw
    have hhanded : handed t.hist = s.popped := by
      have hh : handed t.hist = s.handed := h.handed_eq
      simpa [FifoSender.handed, hs] using hh
    have hview : sendView ({ t with posted := rest }.sendDataInner data) =
        { sendView t with
          handed := handed t.hist ++ [data]
          queue := [data]
          pending := pending rest
          writes := [data] } := by
      simp [sendView, sendDataInner, writeFront, asyncWrite, hqueue, hs, hwrites]
    rw [hview]
    constructor
    · exact h.accepted_eq
    · simp [FifoSender.handed, hq, hs, hhanded]
    · exact h.popped_eq
    · exact h.written_eq
    · exact h.failed_iff
    · exact h.misuses_eq
    · simp [hq, hs]
    · exact hpend'.symm
    · simp [FifoSender.flight, hq, hs, hfalse]
    · exact h.addr_eq
  · have hview : sendView ({ t with posted := rest }.sendDataInner data) =
        { sendView t with
          queue := s.queue ++ [data]
          pending := pending rest } := by
      simp [sendView, sendDataInner, hqueue, hs]
    rw [hview]
    constructor
    · exact h.accepted_eq
    · simpa [FifoSender.handed, hq, hs] using h.handed_eq
    · exact h.popped_eq
    · exact h.written_eq
    · exact h.failed_iff
    · exact h.misuses_eq
    · exact hq.symm
    · exact hpend'.symm
    · simpa [FifoSender.flight, hq, hs] using h.writes_eq
    · exact h.addr_eq

theorem doRead_view (t : WebsocketTransport) : sendView t.doRead = sendView t := by
  simp [sendView, doRead, asyncRead]

theorem onHandshake_sends (h : Sends (sendView t) s) (cs : List Call) (ec : ErrorCode) :
    ∃ s', FifoSender.Steps s s' ∧
      Sends (sendView ((t.handshakeCompletes ec).onHandshake cs ec)) s' := by
  cases ec with
  | some ec =>
    have hv :
        sendView ((t.handshakeCompletes (some ec)).onHandshake cs (some ec)) = sendView t := by
      simp [sendView, handshakeCompletes, onHandshake, fail, output]
    exact ⟨s, .refl, hv ▸ h⟩
  | none =>
    simp only [onHandshake]
    rw [doRead_view]
    split_ifs
    · apply calls_sends
      have hv : sendView ({ t.handshakeCompletes none with connected := true }.output
          .connectCallback) = sendView t := by
        simp [sendView, handshakeCompletes, output]
      exact hv ▸ h
    · have hv : sendView { t.handshakeCompletes none with connected := true } = sendView t := by
        simp [sendView, handshakeCompletes, output]
      exact ⟨s, .refl, hv ▸ h⟩

theorem onRead_sends (h : Sends (sendView t) s) (i : ℕ) (r : Read) (cs : List Call)
    (ec : ErrorCode) :
    ∃ s', FifoSender.Steps s s' ∧ Sends (sendView ((t.readCompletes i r ec).onRead cs ec)) s' := by
  cases ec with
  | some ec =>
    have hv : sendView ((t.readCompletes i r (some ec)).onRead cs (some ec)) = sendView t := by
      simp [sendView, readCompletes, onRead, fail, output]
    exact ⟨s, .refl, hv ▸ h⟩
  | none =>
    simp only [onRead]
    rw [doRead_view]
    change ∃ s', FifoSender.Steps s s' ∧ Sends (sendView (if (t.readCompletes i r none).msgCallback
      then ((t.readCompletes i r none).output
        (.msgCallback (t.readCompletes i r none).buffer)).calls cs
      else t.readCompletes i r none)) s'
    split_ifs
    · apply calls_sends
      have hv : sendView ((t.readCompletes i r none).output
          (.msgCallback (t.readCompletes i r none).buffer)) = sendView t := by
        simp [sendView, readCompletes, output]
      exact hv ▸ h
    · have hv : sendView (t.readCompletes i r none) = sendView t := by
        simp [sendView, readCompletes, output]
      exact ⟨s, .refl, hv ▸ h⟩

/-- The transport refines the sender: each of its steps is a run of the sender. -/
theorem sends_step (h : Sends (sendView t) s) {e : Event} (he : t.step e = some t') :
    ∃ s', FifoSender.Steps s s' ∧ Sends (sendView t') s' := by
  cases e with
  | enter c =>
    obtain rfl := Option.some.inj he
    split_ifs
    · exact ⟨s, .refl, h⟩
    · exact ⟨s, .refl, refuse_view t c ▸ h⟩
  | leave i =>
    obtain ⟨c, -, rfl⟩ := step_leave.mp he
    exact act_sends (t := { t with entered := t.entered.eraseIdx i }) h c
  | resolved ec =>
    obtain ⟨-, rfl⟩ := step_resolved.mp he
    have hv : sendView ({ t with resolves := t.resolves - 1 }.onResolve ec) = sendView t := by
      cases ec <;> simp [sendView, onResolve, fail, output, asyncConnect]
    exact ⟨s, .refl, hv ▸ h⟩
  | tcpConnected ec =>
    obtain ⟨-, rfl⟩ := step_tcpConnected.mp he
    have hv : sendView ({ t with connects := t.connects - 1 }.onConnect ec) = sendView t := by
      cases ec <;> simp [sendView, onConnect, fail, output, asyncHandshake]
    exact ⟨s, .refl, hv ▸ h⟩
  | handshaken ec cs =>
    obtain ⟨-, rfl⟩ := step_handshaken.mp he
    exact onHandshake_sends h cs ec
  | frame i bytes =>
    obtain ⟨r, -, rfl⟩ := step_frame.mp he
    exact ⟨s, .refl, h⟩
  | readDone i ec cs =>
    obtain ⟨r, -, rfl⟩ := step_readDone.mp he
    exact onRead_sends h i r cs ec
  | writeDone i ec =>
    obtain ⟨w, hw, rfl⟩ := step_writeDone.mp he
    cases ec with
    | some ec => exact onWrite_error_sends h hw ec
    | none => exact onWrite_none_sends h hw
  | closeDone i ec =>
    obtain ⟨c, -, rfl⟩ := step_closeDone.mp he
    have hv : sendView ((t.closeCompletes i c ec).onClose ec) = sendView t := by
      cases ec <;> simp [sendView, closeCompletes, onClose, fail, output]
    exact ⟨s, .refl, hv ▸ h⟩
  | runPosted =>
    obtain ⟨p, rest, hp, rfl⟩ := step_runPosted.mp he
    cases p with
    | sendDataInner data => exact sendDataInner_sends h hp
    | disconnect =>
      have hv : sendView ({ t with posted := rest }.runPosted .disconnect) = sendView t := by
        simp only [runPosted]
        split_ifs <;> simp [sendView, asyncClose, hp] <;> rfl
      exact ⟨s, .refl, hv ▸ h⟩
  | notOpen =>
    obtain rfl := Option.some.inj he
    exact ⟨s, .refl, h⟩

theorem sends_reachable (h : system.Reachable t) : ∃ s, Sends (sendView t) s := by
  apply h.invariant (I := fun t => ∃ s, Sends (sendView t) s)
  · intro t ht
    exact ⟨_, sends_fresh ht⟩
  · intro a e b he ha
    obtain ⟨s, hs⟩ := ha
    obtain ⟨s', -, hs'⟩ := sends_step hs he
    exact ⟨s', hs'⟩

end WebrtcNativeDemo.WebsocketTransport
