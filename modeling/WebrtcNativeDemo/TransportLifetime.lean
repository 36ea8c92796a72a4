import WebrtcNativeDemo.TransportSteps

/-!
# The lifetime of a transport

A transport lives as long as someone holds a `std::shared_ptr` to it: its owner, and
every handler and `SendDataInner` that was bound with `shared_from_this()`. The closure
of `Disconnect` captures the raw `this` and holds nothing, so it may be run after the
last reference has gone.
-/

namespace WebrtcNativeDemo

structure SharedTransport where
  ws : WebsocketTransport
  -- the owner still holds its pointer
  owned : Bool := true
  -- the destructor has run
  destroyed : Bool := false

namespace WebsocketTransport

/-- The handlers and closures that hold `shared_from_this()`. -/
def handlers (t : WebsocketTransport) : ℕ :=
  t.resolves + t.connects + t.handshakes + t.reads.length + t.writes.length + t.closes.length +
    (pending t.posted).length

/-- The handler that the event runs lets its reference go and starts nothing that
takes one. -/
def Event.finishes (t : WebsocketTransport) : Event → Bool
  | .resolved ec | .tcpConnected ec | .handshaken ec _ | .readDone _ ec _ => ec.isSome
  | .writeDone _ ec => ec.isSome || t.sendMsgQueue.length ≤ 1
  | .closeDone _ _ => true
  | .runPosted => t.posted.head? != some .disconnect && !t.sendMsgQueue.isEmpty
  | _ => false

end WebsocketTransport

namespace SharedTransport

def useCount (s : SharedTransport) : ℕ := s.ws.handlers + if s.owned then 1 else 0

/-- The reference of a handler goes with it, and with the last one the transport:
`~WebsocketTransport` calls `Disconnect`. -/
def settle (s : SharedTransport) : SharedTransport :=
  if s.useCount = 0 then { s with ws := s.ws.disconnect, destroyed := true } else s

inductive Event
  | release
  | transport (e : WebsocketTransport.Event)

/-- Where the object was, only the closures of `Disconnect` are still run; what they do
there is not defined. -/
def dangling (s : SharedTransport) : WebsocketTransport.Event → Option SharedTransport
  | .runPosted =>
    match s.ws.posted with
    | [] => none
    | _ :: rest => some { s with ws.posted := rest }
  | _ => none

/-- A call from outside is made through the owner's pointer. -/
def permits (s : SharedTransport) : WebsocketTransport.Event → Bool
  | .enter _ => s.owned
  | _ => true

/-- The owner drops its pointer outside of its calls. -/
def step (s : SharedTransport) : Event → Option SharedTransport
  | .release =>
    if s.owned = true ∧ s.ws.entered = [] then some { s with owned := false }.settle else none
  | .transport e =>
    if s.destroyed then s.dangling e
    else if s.permits e then (s.ws.step e).map fun ws => { s with ws }.settle
    else none

def Fresh (s : SharedTransport) : Prop := ∃ t, WebsocketTransport.Fresh t ∧ s = { ws := t }

def system : EventSystem SharedTransport Event := ⟨Fresh, step⟩

def RunsDisconnect (s : SharedTransport) (e : Event) : Prop :=
  e = .transport .runPosted ∧ s.ws.posted.head? = some .disconnect

def lastReference (s : SharedTransport) : Event → Bool
  | .release => s.ws.handlers == 0
  | .transport e => !s.owned && s.ws.handlers == 1 && e.finishes s.ws

/-- With the last reference goes the transport, but no closure of `Disconnect` waits. -/
def LeavesNothing (s : SharedTransport) (e : Event) : Prop :=
  s.lastReference e = true → .disconnect ∉ s.ws.posted

instance (s : SharedTransport) (e : Event) : Decidable (LeavesNothing s e) :=
  inferInstanceAs (Decidable (s.lastReference e = true → .disconnect ∉ s.ws.posted))

end SharedTransport

namespace WebsocketTransport

variable {t t' : WebsocketTransport}

theorem act_handlers (t : WebsocketTransport) (c : Call) : t.handlers ≤ (t.act c).handlers := by
  cases c <;> simp only [act, postSend, startResolve, asyncResolve, postClose, handlers, pending,
    List.filterMap_append, List.length_append] <;> omega

theorem calls_handlers (t : WebsocketTransport) (cs : List Call) :
    t.handlers ≤ (t.calls cs).handlers := by
  apply calls_preserve (I := fun t' => t.handlers ≤ t'.handlers) _ cs (Nat.le_refl _)
  intro t' c ht
  refine ht.trans ?_
  rw [call_eq]
  split_ifs
  · exact act_handlers t' c
  · cases c <;> exact Nat.le_refl _

theorem doRead_handlers (t : WebsocketTransport) : t.doRead.handlers = t.handlers + 1 := by
  simp only [doRead, asyncRead, handlers, List.length_append, List.length_singleton]
  omega

theorem writeFront_handlers {data : Msg} {rest : List Msg} (h : t.sendMsgQueue = data :: rest) :
    t.writeFront.handlers = t.handlers + 1 := by
  simp only [writeFront, h, asyncWrite, handlers, List.length_append, List.length_singleton]
  omega

theorem onHandshake_handlers (t : WebsocketTransport) (cs : List Call) :
    t.handlers + 1 ≤ (t.onHandshake cs none).handlers := by
  simp only [onHandshake, doRead_handlers]
  split_ifs
  · exact Nat.succ_le_succ
      (calls_handlers ({ t with connected := true }.output .connectCallback) cs)
  · exact Nat.le_refl _

theorem onRead_handlers (t : WebsocketTransport) (cs : List Call) :
    t.handlers + 1 ≤ (t.onRead cs none).handlers := by
  simp only [onRead, doRead_handlers]
  split_ifs
  · exact Nat.succ_le_succ (calls_handlers (t.output (.msgCallback t.buffer)) cs)
  · exact Nat.le_refl _

theorem onWrite_handlers (t : WebsocketTransport) :
    (t.onWrite none).handlers = t.handlers + if t.sendMsgQueue.length ≤ 1 then 0 else 1 := by
  rcases hq : t.sendMsgQueue with _ | ⟨data, _ | ⟨next, rest⟩⟩
  · simp [onWrite, eraseFront, hq, output, handlers]
  · simp [onWrite, eraseFront, hq, output, handlers]
  · have hqueue : t.eraseFront.sendMsgQueue = next :: rest := by simp [eraseFront, hq, output]
    have hsame : t.eraseFront.handlers = t.handlers := by simp [eraseFront, hq, output, handlers]
    simp [onWrite, hqueue, writeFront_handlers hqueue, hsame]

theorem sendDataInner_handlers (t : WebsocketTransport) (data : Msg) :
    (t.sendDataInner data).handlers =
      t.handlers + if t.sendMsgQueue.isEmpty then 1 else 0 := by
  rcases hq : t.sendMsgQueue with _ | ⟨front, rest⟩
  · have hwrite : ({ t with sendMsgQueue := [data] }).writeFront.handlers = t.handlers + 1 :=
      writeFront_handlers rfl
    simpa [sendDataInner, hq] using hwrite
  · simp [sendDataInner, hq, handlers]

theorem length_eraseIdx_getElem? {α : Type*} {l : List α} {i : ℕ} {a : α} (h : l[i]? = some a) :
    (l.eraseIdx i).length + 1 = l.length := by
  obtain ⟨hi, -⟩ := List.getElem?_eq_some_iff.mp h
  rw [List.length_eraseIdx_of_lt hi]
  omega

theorem readCompletes_handlers {i : ℕ} {r : Read} (ec : ErrorCode) (hr : t.reads[i]? = some r) :
    (t.readCompletes i r ec).handlers + 1 = t.handlers := by
  have hlen := length_eraseIdx_getElem? hr
  simp only [readCompletes, output, handlers]
  omega

theorem writeCompletes_handlers {i : ℕ} {w : Write} (ec : ErrorCode) (hw : t.writes[i]? = some w) :
    (t.writeCompletes i w ec).handlers + 1 = t.handlers := by
  have hlen := length_eraseIdx_getElem? hw
  simp only [writeCompletes, output, handlers]
  omega

theorem closeCompletes_handlers {i : ℕ} {c : Close} (ec : ErrorCode) (hc : t.closes[i]? = some c) :
    (t.closeCompletes i c ec).handlers + 1 = t.handlers := by
  have hlen := length_eraseIdx_getElem? hc
  simp only [closeCompletes, output, handlers]
  omega

/-- A handler that finishes gives its reference back; every other step leaves at least
as many. -/
theorem handlers_step {e : Event} (he : t.step e = some t') :
    (e.finishes t = true → t'.handlers + 1 = t.handlers) ∧
      (e.finishes t = false → t.handlers ≤ t'.handlers) := by
  cases e with
  | enter c =>
    obtain rfl := Option.some.inj he
    refine ⟨by simp [Event.finishes], fun _ => ?_⟩
    split_ifs
    · exact Nat.le_refl _
    · cases c <;> exact Nat.le_refl _
  | leave i =>
    obtain ⟨c, -, rfl⟩ := step_leave.mp he
    exact ⟨by simp [Event.finishes],
      fun _ => act_handlers { t with entered := t.entered.eraseIdx i } c⟩
  | resolved ec =>
    obtain ⟨hr, rfl⟩ := step_resolved.mp he
    cases ec <;> simp only [onResolve, asyncConnect, fail, output, handlers, Event.finishes] <;>
      constructor <;> intro hf <;> first | omega | cases hf
  | tcpConnected ec =>
    obtain ⟨hc, rfl⟩ := step_tcpConnected.mp he
    cases ec <;> simp only [onConnect, asyncHandshake, fail, output, handlers, Event.finishes] <;>
      constructor <;> intro hf <;> first | omega | cases hf
  | handshaken ec cs =>
    obtain ⟨hh, rfl⟩ := step_handshaken.mp he
    cases ec with
    | some ec =>
      refine ⟨fun _ => ?_, by simp [Event.finishes]⟩
      simp only [handshakeCompletes, onHandshake, fail, output, handlers]
      omega
    | none =>
      refine ⟨by simp [Event.finishes], fun _ => ?_⟩
      have hstart := onHandshake_handlers (t.handshakeCompletes none) cs
      have hend : (t.handshakeCompletes none).handlers + 1 = t.handlers := by
        simp only [handshakeCompletes, output, handlers]
        omega
      omega
  | frame i bytes =>
    obtain ⟨r, -, rfl⟩ := step_frame.mp he
    refine ⟨by simp [Event.finishes], fun _ => ?_⟩
    simp [frameArrives, handlers]
  | readDone i ec cs =>
    obtain ⟨r, hr, rfl⟩ := step_readDone.mp he
    have hend := readCompletes_handlers ec hr
    cases ec with
    | some ec => exact ⟨fun _ => hend, by simp [Event.finishes]⟩
    | none =>
      refine ⟨by simp [Event.finishes], fun _ => ?_⟩
      have hstart := onRead_handlers (t.readCompletes i r none) cs
      omega
  | writeDone i ec =>
    obtain ⟨w, hw, rfl⟩ := step_writeDone.mp he
    have hend := writeCompletes_handlers ec hw
    cases ec with
    | some ec => exact ⟨fun _ => hend, by simp [Event.finishes]⟩
    | none =>
      have hqueue : (t.writeCompletes i w none).sendMsgQueue = t.sendMsgQueue := rfl
      rw [onWrite_handlers, hqueue]
      by_cases hl : t.sendMsgQueue.length ≤ 1
      · simp [Event.finishes, hl, hend]
      · simp [Event.finishes, hl, hend]
  | closeDone i ec =>
    obtain ⟨c, hc, rfl⟩ := step_closeDone.mp he
    have hend := closeCompletes_handlers ec hc
    refine ⟨fun _ => ?_, by simp [Event.finishes]⟩
    cases ec <;> exact hend
  | runPosted =>
    obtain ⟨p, rest, hp, rfl⟩ := step_runPosted.mp he
    cases p with
    | sendDataInner data =>
      have hend : { t with posted := rest }.handlers + 1 = t.handlers := by
        simp only [handlers, pending, hp, List.filterMap_cons, Posted.data, List.length_cons]
        omega
      have hrun := sendDataInner_handlers { t with posted := rest } data
      have hfin : Event.finishes t .runPosted = !t.sendMsgQueue.isEmpty := by
        simp [Event.finishes, hp]
      rw [runPosted, hrun, hfin]
      cases t.sendMsgQueue.isEmpty with
      | true => exact ⟨by simp, fun _ => hend.symm.le⟩
      | false => exact ⟨fun _ => hend, by simp⟩
    | disconnect =>
      refine ⟨fun hf => by simp [Event.finishes, hp] at hf, fun _ => ?_⟩
      have hsame : { t with posted := rest }.handlers = t.handlers := by
        simp [handlers, pending, hp, List.filterMap_cons]
      rw [← hsame]
      simp only [runPosted]
      split_ifs
      · exact Nat.le_refl _
      · simp only [asyncClose, handlers, List.length_append, List.length_singleton]
        omega
  | notOpen =>
    obtain rfl := Option.some.inj he
    exact ⟨by simp [Event.finishes], fun _ => Nat.le_refl _⟩

theorem finishes_posted {e : Event} (he : t.step e = some t') (hf : e.finishes t = true) :
    .disconnect ∈ t'.posted ↔ .disconnect ∈ t.posted := by
  cases e with
  | resolved ec =>
    obtain ⟨-, rfl⟩ := step_resolved.mp he
    cases ec <;> exact Iff.rfl
  | tcpConnected ec =>
    obtain ⟨-, rfl⟩ := step_tcpConnected.mp he
    cases ec <;> exact Iff.rfl
  | handshaken ec cs =>
    obtain ⟨-, rfl⟩ := step_handshaken.mp he
    cases ec with
    | some ec => exact Iff.rfl
    | none => cases hf
  | readDone i ec cs =>
    obtain ⟨r, -, rfl⟩ := step_readDone.mp he
    cases ec with
    | some ec => exact Iff.rfl
    | none => cases hf
  | writeDone i ec =>
    obtain ⟨w, -, rfl⟩ := step_writeDone.mp he
    cases ec with
    | some ec => exact Iff.rfl
    | none =>
      obtain ⟨q, ws, hist, hframe⟩ := onWrite_frame (t.writeCompletes i w none)
      rw [hframe]
      exact Iff.rfl
  | closeDone i ec =>
    obtain ⟨c, -, rfl⟩ := step_closeDone.mp he
    cases ec <;> exact Iff.rfl
  | runPosted =>
    obtain ⟨p, rest, hp, rfl⟩ := step_runPosted.mp he
    cases p with
    | sendDataInner data =>
      obtain ⟨q, ws, hist, hframe⟩ := sendDataInner_frame { t with posted := rest } data
      rw [runPosted, hframe, hp]
      simp
    | disconnect => simp [Event.finishes, hp] at hf
  | enter c | leave i | frame i bytes | notOpen => cases hf

def OpenReads (t : WebsocketTransport) : Prop :=
  t.isOpen = true → ∃ r ∈ t.reads, r.conn = t.conn

theorem openReads_step {e : Event} (he : t.step e = some t') (h : OpenReads t) : OpenReads t' := by
  intro ho
  cases e with
  | handshaken ec cs =>
    cases ec with
    | some ec =>
      obtain ⟨hconn, hopen⟩ := conn_step he (by simp)
      obtain ⟨hreads, -⟩ := readSide_step he (by simp) (by simp) (by simp)
      rw [hreads, hconn]
      exact h (hopen ho)
    | none =>
      obtain ⟨-, rfl⟩ := step_handshaken.mp he
      refine ⟨⟨((t.handshakeCompletes none).onHandshake cs none).conn, []⟩, ?_, rfl⟩
      simp [onHandshake, doRead, asyncRead]
  | frame i bytes =>
    obtain ⟨r, hr, rfl⟩ := step_frame.mp he
    obtain ⟨r', hr', hconn⟩ := h ho
    obtain ⟨j, hj⟩ := List.getElem?_of_mem hr'
    by_cases hij : i = j
    · subst hij
      obtain rfl : r = r' := Option.some.inj (hr.symm.trans hj)
      refine ⟨{ r with got := r.got ++ bytes }, ?_, hconn⟩
      obtain ⟨hi, -⟩ := List.getElem?_eq_some_iff.mp hr
      exact List.mem_of_getElem? (List.getElem?_set_self hi)
    · refine ⟨r', ?_, hconn⟩
      exact List.mem_of_getElem? ((List.getElem?_set_ne hij).trans hj)
  | readDone i ec cs =>
    obtain ⟨hconn, -⟩ := conn_step he (by simp)
    obtain ⟨r, hr, rfl⟩ := step_readDone.mp he
    cases ec with
    | some ec =>
      -- the read that has failed was one of an earlier connection
      obtain ⟨hopen, hne⟩ : t.isOpen = true ∧ r.conn ≠ t.conn := by
        simpa [readCompletes, openAfter, onRead, fail, output] using ho
      obtain ⟨r', hr', hcur⟩ := h hopen
      obtain ⟨j, hj⟩ := List.getElem?_of_mem hr'
      refine ⟨r', List.mem_eraseIdx_iff_getElem?.mpr ⟨j, fun hji => ?_, hj⟩, hcur⟩
      rw [hji, hr] at hj
      exact hne (Option.some.inj hj ▸ hcur)
    | none =>
      refine ⟨⟨((t.readCompletes i r none).onRead cs none).conn, []⟩, ?_, rfl⟩
      simp [onRead, doRead, asyncRead]
  | enter c | leave i | resolved ec | tcpConnected ec | writeDone i ec | closeDone i ec
  | runPosted | notOpen =>
    obtain ⟨hconn, hopen⟩ := conn_step he (by simp)
    obtain ⟨hreads, -⟩ := readSide_step he (by simp) (by simp) (by simp)
    rw [hreads, hconn]
    exact h (hopen ho)

theorem openReads_reachable (h : system.Reachable t) : OpenReads t := by
  apply h.invariant (I := OpenReads)
  · intro t ht ho
    obtain ⟨host, port, subprotocol, c, m, rfl⟩ := fresh_eq ht
    cases ho
  · exact fun a e b he => openReads_step he

end WebsocketTransport

namespace SharedTransport

variable {s s' : SharedTransport}

theorem step_release : s.step .release = some s' ↔
    (s.owned = true ∧ s.ws.entered = []) ∧ { s with owned := false }.settle = s' := by
  simp [step]

theorem step_transport {e : WebsocketTransport.Event} (ha : s.destroyed = false)
    (he : s.step (.transport e) = some s') :
    ∃ ws, s.ws.step e = some ws ∧ s' = { s with ws }.settle := by
  simp only [step, ha, Bool.false_eq_true, if_false] at he
  split_ifs at he
  obtain ⟨ws, hws, rfl⟩ := Option.map_eq_some_iff.mp he
  exact ⟨ws, hws, by rw [ha]⟩

theorem step_dangling {e : WebsocketTransport.Event} (hd : s.destroyed = true)
    (he : s.step (.transport e) = some s') : s.dangling e = some s' := by
  simpa only [step, hd, if_true] using he

theorem useCount_eq_zero {e : WebsocketTransport.Event} {ws : WebsocketTransport}
    (h : s.useCount ≠ 0) (he : s.ws.step e = some ws) :
    ({ s with ws } : SharedTransport).useCount = 0 ↔ s.lastReference (.transport e) = true := by
  obtain ⟨hends, hkeeps⟩ := WebsocketTransport.handlers_step he
  simp only [useCount] at h
  cases ho : s.owned with
  | true => simp [useCount, lastReference, ho]
  | false =>
    cases hf : e.finishes s.ws with
    | true =>
      have hends := hends hf
      simp [useCount, lastReference, ho, hf]
      omega
    | false =>
      have hkeeps := hkeeps hf
      simp [ho] at h
      simp [useCount, lastReference, ho, hf]
      omega

/-- The destructor finds the stream closed: an open one would have a read outstanding. -/
theorem settle_of_zero (h : s.useCount = 0) (hr : WebsocketTransport.OpenReads s.ws) :
    s.settle = { s with destroyed := true } := by
  have hclosed : s.ws.isOpen = false := by
    by_contra ho
    obtain ⟨r, hmem, -⟩ := hr (by simpa using ho)
    have hlen := List.length_pos_of_mem hmem
    simp only [useCount, WebsocketTransport.handlers] at h
    omega
  simp [settle, h, WebsocketTransport.disconnect, hclosed]

/-- A transport is alive while it is referenced, and no closure of `Disconnect` is left
when it is not. -/
inductive Sound (s : SharedTransport) : Prop
  | alive (destroyed : s.destroyed = false) (count : s.useCount ≠ 0)
      (reachable : WebsocketTransport.system.Reachable s.ws)
  | gone (destroyed : s.destroyed = true) (count : s.useCount = 0)
      (posted : .disconnect ∉ s.ws.posted)

theorem sound_settle (hs : s.destroyed = false)
    (hr : WebsocketTransport.system.Reachable s.ws)
    (hlast : s.useCount = 0 → .disconnect ∉ s.ws.posted) : Sound s.settle := by
  by_cases h : s.useCount = 0
  · rw [settle_of_zero h (WebsocketTransport.openReads_reachable hr)]
    exact .gone rfl h (hlast h)
  · simp only [settle, if_neg h]
    exact .alive hs h hr

theorem sound_step {e : Event} (he : s.step e = some s') (h : Sound s) (hG : LeavesNothing s e) :
    Sound s' := by
  cases h with
  | alive hd hcount hr =>
    cases e with
    | release =>
      obtain ⟨-, rfl⟩ := step_release.mp he
      apply sound_settle (s := { s with owned := false }) hd hr
      intro hzero
      exact hG (by simpa [lastReference, useCount] using hzero)
    | transport e =>
      obtain ⟨ws, hws, rfl⟩ := step_transport hd he
      apply sound_settle (s := { s with ws }) hd (hr.step hws)
      intro hzero
      have hlast := (useCount_eq_zero hcount hws).mp hzero
      have hf : e.finishes s.ws = true := by
        simp only [lastReference, Bool.and_eq_true] at hlast
        exact hlast.2
      exact fun hmem => hG hlast ((WebsocketTransport.finishes_posted hws hf).mp hmem)
  | gone hd hcount hposted =>
    cases e with
    | release =>
      obtain ⟨⟨howned, -⟩, -⟩ := step_release.mp he
      simp [useCount, howned] at hcount
    | transport e =>
      have he := step_dangling hd he
      cases e with
      | runPosted =>
        rcases hp : s.ws.posted with _ | ⟨p, rest⟩
        · simp [dangling, hp] at he
        · obtain rfl : { s with ws.posted := rest } = s' := by simpa [dangling, hp] using he
          rw [hp] at hposted
          refine .gone hd ?_ fun hmem => hposted (List.mem_cons_of_mem p hmem)
          simp only [useCount, WebsocketTransport.handlers, WebsocketTransport.pending, hp]
            at hcount ⊢
          have hle : (rest.filterMap WebsocketTransport.Posted.data).length ≤
              ((p :: rest).filterMap WebsocketTransport.Posted.data).length :=
            ((List.sublist_cons_self p rest).filterMap _).length_le
          omega
      | enter c | leave i | resolved ec | tcpConnected ec | handshaken ec cs | frame i bytes
      | readDone i ec cs | writeDone i ec | closeDone i ec | notOpen => cases he

theorem dangling_destroyed {e : WebsocketTransport.Event} (he : s.dangling e = some s') :
    s'.destroyed = s.destroyed := by
  cases e with
  | runPosted =>
    simp only [dangling] at he
    split at he
    · cases he
    · rw [← Option.some.inj he]
  | enter c | leave i | resolved ec | tcpConnected ec | handshaken ec cs | frame i bytes
  | readDone i ec cs | writeDone i ec | closeDone i ec | notOpen => cases he

theorem alive_reachable (h : system.Reachable s) :
    s.destroyed = false → s.useCount ≠ 0 ∧ WebsocketTransport.system.Reachable s.ws := by
  have hsettle (s : SharedTransport) (hr : WebsocketTransport.system.Reachable s.ws)
      (hd : s.settle.destroyed = false) :
      s.settle.useCount ≠ 0 ∧ WebsocketTransport.system.Reachable s.settle.ws := by
    simp only [settle] at hd ⊢
    split_ifs at hd ⊢ with hzero
    exact ⟨hzero, hr⟩
  apply h.invariant (I := fun s : SharedTransport =>
    s.destroyed = false → s.useCount ≠ 0 ∧ WebsocketTransport.system.Reachable s.ws)
  · intro s hs _
    obtain ⟨t, ht, rfl⟩ := hs
    exact ⟨by simp [useCount], .of_start ht⟩
  · intro a e b he ha hb
    cases hd : a.destroyed with
    | false =>
      cases e with
      | release =>
        obtain ⟨-, rfl⟩ := step_release.mp he
        exact hsettle { a with owned := false } (ha hd).2 hb
      | transport e =>
        obtain ⟨ws, hws, rfl⟩ := step_transport hd he
        exact hsettle { a with ws } ((ha hd).2.step hws) hb
    | true =>
      have hgone : b.destroyed = true := by
        cases e with
        | release =>
          obtain ⟨-, rfl⟩ := step_release.mp he
          simp only [settle]
          split_ifs
          · rfl
          · exact hd
        | transport e =>
          rw [dangling_destroyed (step_dangling hd he), hd]
      simp [hgone] at hb

theorem sound_fresh (h : Fresh s) : Sound s := by
  obtain ⟨t, ht, rfl⟩ := h
  exact .alive rfl (by simp [useCount]) (.of_start ht)

/-- In the runs in which no closure of `Disconnect` waits when the last reference goes,
the transport is alive whenever one of these closures is run. -/
theorem disconnect_alive (hs : Fresh s) (es : List Event)
    (hG : ∀ a e b, system.Takes s es a e b → LeavesNothing a e) :
    ∀ a e b, system.Takes s es a e b → RunsDisconnect a e → 1 ≤ a.useCount := by
  intro a e b hab hrun
  have ha : Sound a := by
    apply EventSystem.takes_invariant _ (sound_fresh hs) hG a hab.visits_left
    exact fun a e b he ha hG => sound_step he ha hG
  cases ha with
  | alive hd hcount hr => exact Nat.one_le_iff_ne_zero.mpr hcount
  | gone hd hcount hposted => exact absurd (List.mem_of_mem_head? hrun.2) hposted

/-- A closure that waits when the last reference goes is run where the transport was. -/
theorem closure_outlives {e : Event} (h : system.Reachable s) (hd : s.destroyed = false)
    (he : s.step e = some s') (hG : ¬ LeavesNothing s e) :
    s'.useCount = 0 ∧ RunsDisconnect s' (.transport .runPosted) ∧
      (s'.step (.transport .runPosted)).isSome = true := by
  obtain ⟨hcount, hr⟩ := alive_reachable h hd
  simp only [LeavesNothing, not_forall, not_not] at hG
  obtain ⟨hlast, hmem⟩ := hG
  -- the state before the destructor runs
  obtain ⟨u, hu, hur, hud, hzero, humem⟩ : ∃ u : SharedTransport, s' = u.settle ∧
      WebsocketTransport.system.Reachable u.ws ∧ u.destroyed = false ∧ u.useCount = 0 ∧
      .disconnect ∈ u.ws.posted := by
    cases e with
    | release =>
      obtain ⟨-, rfl⟩ := step_release.mp he
      refine ⟨{ s with owned := false }, rfl, hr, hd, ?_, hmem⟩
      simpa [lastReference, useCount] using hlast
    | transport e =>
      obtain ⟨ws, hws, rfl⟩ := step_transport hd he
      have hf : e.finishes s.ws = true := by
        simp only [lastReference, Bool.and_eq_true] at hlast
        exact hlast.2
      exact ⟨{ s with ws }, rfl, hr.step hws, hd, (useCount_eq_zero hcount hws).mpr hlast,
        (WebsocketTransport.finishes_posted hws hf).mpr hmem⟩
  have hsettle := settle_of_zero hzero (WebsocketTransport.openReads_reachable hur)
  rw [hu, hsettle]
  have hpending : WebsocketTransport.pending u.ws.posted = [] := by
    simp only [useCount, WebsocketTransport.handlers] at hzero
    exact List.eq_nil_of_length_eq_zero (by omega)
  rcases hp : u.ws.posted with _ | ⟨p, rest⟩
  · simp [hp] at humem
  · cases p with
    | sendDataInner data => simp [hp, WebsocketTransport.pending] at hpending
    | disconnect => exact ⟨hzero, ⟨rfl, by simp [hp]⟩, by simp [step, dangling, hp]⟩

/-- The connection is made and lost, and the owner lets the transport go. -/
def lostThenReleased : List Event :=
  (WebsocketTransport.opening ++
    [WebsocketTransport.Event.readDone 0 (some "End of file") []]).map .transport ++ [.release]

theorem disconnect_alive_lost : ∃ b,
    system.exec { ws := .create "127.0.0.1" 8188 } lostThenReleased = some b ∧
    b.destroyed = true ∧
    ∀ a e b, system.Takes { ws := .create "127.0.0.1" 8188 } lostThenReleased a e b →
      RunsDisconnect a e → 1 ≤ a.useCount := by
  have hall : ∀ x ∈ system.taken { ws := .create "127.0.0.1" 8188 } lostThenReleased,
      LeavesNothing x.1 x.2.1 := by decide
  exact ⟨_, rfl, rfl, disconnect_alive ⟨_, .create _ _ _, rfl⟩ lostThenReleased
    (EventSystem.forall_takes.mpr hall)⟩

/-- `Disconnect()` posts its closure, the read fails first, and the owner lets the
transport go: the closure is run with the count at zero. -/
theorem disconnect_after_release : ∃ a b,
    system.exec { ws := .create "127.0.0.1" 8188 }
      ((WebsocketTransport.opening ++ [WebsocketTransport.Event.enter .disconnect, .leave 0,
        .readDone 0 (some "End of file") []]).map .transport ++ [.release]) = some a ∧
    a.step (.transport .runPosted) = some b ∧ RunsDisconnect a (.transport .runPosted) ∧
    a.destroyed = true ∧ a.useCount = 0 :=
  ⟨_, _, rfl, rfl, ⟨rfl, rfl⟩, rfl, rfl⟩

end SharedTransport
end WebrtcNativeDemo
