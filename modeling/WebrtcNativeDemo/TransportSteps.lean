import WebrtcNativeDemo.WebsocketTransport

/-!
# Histories and steps of the transport

The projections of `hist` that the properties speak about, what a call can and
cannot change, and one inversion lemma per event: when it is enabled and the
state it leads to.
-/

namespace WebrtcNativeDemo.WebsocketTransport

/-! ### Projections of the history -/

variable {β : Type*}

def seen (f : Output → Option β) (h : List Output) : List β := h.filterMap f

@[simp] theorem seen_nil (f : Output → Option β) : seen f [] = [] := rfl

@[simp] theorem seen_cons (f : Output → Option β) (o : Output) (h : List Output) :
    seen f (o :: h) = (f o).toList ++ seen f h := by
  cases ho : f o <;> simp [seen, ho]

@[simp] theorem seen_append (f : Output → Option β) (h k : List Output) :
    seen f (h ++ k) = seen f h ++ seen f k := List.filterMap_append

@[simp] def Output.acceptedMsg : Output → Option Msg
  | .accepted data => some data
  | _ => none

@[simp] def Output.handedMsg : Output → Option Msg
  | .asyncWrite data => some data
  | _ => none

@[simp] def Output.poppedMsg : Output → Option Msg
  | .popped data => some data
  | _ => none

@[simp] def Output.writtenMsg : Output → Option Msg
  | .writeDone _ none data => some data
  | _ => none

@[simp] def Output.failedMsg : Output → Option Msg
  | .writeDone _ (some _) data => some data
  | _ => none

@[simp] def Output.deliveredMsg : Output → Option Bytes
  | .msgCallback msg => some msg
  | _ => none

@[simp] def Output.receivedMsg : Output → Option Bytes
  | .readDone _ none got => some got
  | _ => none

-- what had arrived of its message when a read completed with an error
@[simp] def Output.brokenMsg : Output → Option Bytes
  | .readDone _ (some _) got => some got
  | _ => none

@[simp] def Output.readBuffer : Output → Option Bytes
  | .asyncRead buffer => some buffer
  | _ => none

@[simp] def Output.byCaller : Output → Bool
  | .log _ | .accepted _ | .asyncResolve _ _ => true
  | _ => false

@[simp] def Output.bySender : Output → Bool
  | .asyncWrite _ | .emptyAccess => true
  | _ => false

abbrev accepted (h : List Output) : List Msg := seen Output.acceptedMsg h
abbrev handed (h : List Output) : List Msg := seen Output.handedMsg h
abbrev popped (h : List Output) : List Msg := seen Output.poppedMsg h
abbrev written (h : List Output) : List Msg := seen Output.writtenMsg h
abbrev failedWrites (h : List Output) : List Msg := seen Output.failedMsg h
abbrev delivered (h : List Output) : List Bytes := seen Output.deliveredMsg h
abbrev received (h : List Output) : List Bytes := seen Output.receivedMsg h
abbrev brokenReads (h : List Output) : List Bytes := seen Output.brokenMsg h
abbrev readBuffers (h : List Output) : List Bytes := seen Output.readBuffer h

@[simp] def Posted.data : Posted → Option Msg
  | .sendDataInner data => some data
  | .disconnect => none

abbrev pending (ps : List Posted) : List Msg := ps.filterMap Posted.data

/-! ### What the calls change -/

theorem act_frame (t : WebsocketTransport) (c : Call) :
    ∃ r p a h, t.act c = { t with resolves := r, posted := p, allocated := a, hist := h } := by
  cases c <;> exact ⟨_, _, _, _, rfl⟩

theorem refuse_frame (t : WebsocketTransport) (c : Call) :
    ∃ h, t.refuse c = { t with hist := h } := by
  cases c <;> exact ⟨_, rfl⟩

theorem call_frame (t : WebsocketTransport) (c : Call) :
    ∃ r p a h, t.call c = { t with resolves := r, posted := p, allocated := a, hist := h } := by
  rw [call_eq]
  split_ifs
  · exact act_frame t c
  · obtain ⟨h, he⟩ := refuse_frame t c
    exact ⟨_, _, _, h, he⟩

theorem calls_cons (t : WebsocketTransport) (c : Call) (cs : List Call) :
    t.calls (c :: cs) = (t.call c).calls cs := rfl

theorem calls_frame (t : WebsocketTransport) (cs : List Call) :
    ∃ r p a h, t.calls cs = { t with resolves := r, posted := p, allocated := a, hist := h } := by
  induction cs generalizing t with
  | nil => exact ⟨_, _, _, _, rfl⟩
  | cons c cs ih =>
    obtain ⟨r, p, a, h, hc⟩ := call_frame t c
    obtain ⟨r', p', a', h', hcs⟩ := ih (t.call c)
    exact ⟨r', p', a', h', by rw [calls_cons, hcs, hc]⟩

theorem calls_preserve {I : WebsocketTransport → Prop} (hI : ∀ t c, I t → I (t.call c))
    {t : WebsocketTransport} (cs : List Call) (ht : I t) : I (t.calls cs) := by
  induction cs generalizing t with
  | nil => exact ht
  | cons c cs ih => exact ih (hI t c ht)

theorem calls_seen {f : Output → Option β} (hf : ∀ o, o.byCaller = true → f o = none)
    (t : WebsocketTransport) (cs : List Call) : seen f (t.calls cs).hist = seen f t.hist := by
  apply calls_preserve (I := fun t' => seen f t'.hist = seen f t.hist) _ cs rfl
  intro t' c ht
  rw [← ht]
  cases c with
  | sendMsg msg =>
    by_cases h : t'.connected = true <;> simp [call, sendMsg, postSend, output, h,
      hf (.log _) rfl, hf (.accepted _) rfl]
  | connect =>
    by_cases h : t'.connected = true <;>
      simp [call, connect, startResolve, asyncResolve, h, hf (.asyncResolve _ _) rfl]
  | disconnect =>
    by_cases h : t'.isOpen = true <;> simp [call, disconnect, postClose, h]

section Frame
variable (t : WebsocketTransport) (cs : List Call)

@[simp] theorem calls_connected : (t.calls cs).connected = t.connected := by
  obtain ⟨r, p, a, h, hc⟩ := calls_frame t cs
  rw [hc]

@[simp] theorem calls_connects : (t.calls cs).connects = t.connects := by
  obtain ⟨r, p, a, h, hc⟩ := calls_frame t cs
  rw [hc]

@[simp] theorem calls_handshakes : (t.calls cs).handshakes = t.handshakes := by
  obtain ⟨r, p, a, h, hc⟩ := calls_frame t cs
  rw [hc]

@[simp] theorem calls_reads : (t.calls cs).reads = t.reads := by
  obtain ⟨r, p, a, h, hc⟩ := calls_frame t cs
  rw [hc]

@[simp] theorem calls_buffer : (t.calls cs).buffer = t.buffer := by
  obtain ⟨r, p, a, h, hc⟩ := calls_frame t cs
  rw [hc]

@[simp] theorem calls_entered : (t.calls cs).entered = t.entered := by
  obtain ⟨r, p, a, h, hc⟩ := calls_frame t cs
  rw [hc]

@[simp] theorem calls_msgCallback : (t.calls cs).msgCallback = t.msgCallback := by
  obtain ⟨r, p, a, h, hc⟩ := calls_frame t cs
  rw [hc]

end Frame

/-! ### What the receiving handlers change -/

theorem onHandshake_frame (t : WebsocketTransport) (cs : List Call) :
    ∃ r p a rs h, t.onHandshake cs none = { t with
      connected := true, resolves := r, posted := p, allocated := a, reads := rs, hist := h } := by
  obtain ⟨r, p, a, h, hc⟩ := calls_frame ({ t with connected := true }.output .connectCallback) cs
  simp only [onHandshake, doRead, asyncRead]
  split_ifs
  · exact ⟨r, p, a, _, _, by rw [hc]; rfl⟩
  · exact ⟨_, _, _, _, _, rfl⟩

theorem onRead_frame (t : WebsocketTransport) (cs : List Call) :
    ∃ r p a b rs h, t.onRead cs none = { t with
      resolves := r, posted := p, allocated := a, buffer := b, reads := rs, hist := h } := by
  obtain ⟨r, p, a, h, hc⟩ := calls_frame (t.output (.msgCallback t.buffer)) cs
  simp only [onRead, doRead, asyncRead]
  split_ifs
  · exact ⟨r, p, a, _, _, _, by rw [hc]; rfl⟩
  · exact ⟨_, _, _, _, _, _, rfl⟩

/-! ### What the sending functions change -/

theorem writeFront_frame (t : WebsocketTransport) :
    ∃ ws h, t.writeFront = { t with writes := ws, hist := h } := by
  unfold writeFront
  split <;> exact ⟨_, _, rfl⟩

theorem eraseFront_frame (t : WebsocketTransport) :
    ∃ q h, t.eraseFront = { t with sendMsgQueue := q, hist := h } := by
  unfold eraseFront
  split <;> exact ⟨_, _, rfl⟩

theorem onWrite_frame (t : WebsocketTransport) :
    ∃ q ws h, t.onWrite none = { t with sendMsgQueue := q, writes := ws, hist := h } := by
  obtain ⟨q, h, he⟩ := eraseFront_frame t
  obtain ⟨ws, h', hw⟩ := writeFront_frame t.eraseFront
  simp only [onWrite]
  split_ifs
  · exact ⟨q, ws, h', by rw [hw, he]⟩
  · exact ⟨q, _, h, by rw [he]⟩

theorem sendDataInner_frame (t : WebsocketTransport) (data : Msg) :
    ∃ q ws h, t.sendDataInner data = { t with sendMsgQueue := q, writes := ws, hist := h } := by
  obtain ⟨ws, h, hw⟩ := writeFront_frame { t with sendMsgQueue := t.sendMsgQueue ++ [data] }
  simp only [sendDataInner]
  split_ifs
  · exact ⟨_, _, _, rfl⟩
  · exact ⟨_, ws, h, hw⟩

theorem writeFront_seen {f : Output → Option β} (hf : ∀ o, o.bySender = true → f o = none)
    (t : WebsocketTransport) : seen f t.writeFront.hist = seen f t.hist := by
  unfold writeFront
  split <;> simp [output, asyncWrite, hf (.asyncWrite _) rfl, hf .emptyAccess rfl]

theorem sendDataInner_seen {f : Output → Option β} (hf : ∀ o, o.bySender = true → f o = none)
    (t : WebsocketTransport) (data : Msg) :
    seen f (t.sendDataInner data).hist = seen f t.hist := by
  simp only [sendDataInner]
  split_ifs
  · rfl
  · exact writeFront_seen hf _

theorem onWrite_seen {f : Output → Option β} (hf : ∀ o, o.bySender = true → f o = none)
    (hp : ∀ data, f (.popped data) = none) (t : WebsocketTransport) :
    seen f (t.onWrite none).hist = seen f t.hist := by
  have hpop : seen f t.eraseFront.hist = seen f t.hist := by
    unfold eraseFront
    split <;> simp [output, hf .emptyAccess rfl, hp]
  simp only [onWrite]
  split_ifs
  · rw [writeFront_seen hf, hpop]
  · exact hpop

/-! ### Inversion of the steps -/

section Inversion
variable {t t' : WebsocketTransport} {ec : ErrorCode} {cs : List Call} {i : ℕ}

theorem step_leave : t.step (.leave i) = some t' ↔
    ∃ c, t.entered[i]? = some c ∧ { t with entered := t.entered.eraseIdx i }.act c = t' := by
  simp [step]

theorem step_resolved : t.step (.resolved ec) = some t' ↔
    t.resolves ≠ 0 ∧ { t with resolves := t.resolves - 1 }.onResolve ec = t' := by
  by_cases h : t.resolves = 0 <;> simp [step, h]

theorem step_tcpConnected : t.step (.tcpConnected ec) = some t' ↔
    t.connects ≠ 0 ∧ { t with connects := t.connects - 1 }.onConnect ec = t' := by
  by_cases h : t.connects = 0 <;> simp [step, h]

theorem step_handshaken : t.step (.handshaken ec cs) = some t' ↔
    t.handshakes ≠ 0 ∧ (t.handshakeCompletes ec).onHandshake cs ec = t' := by
  by_cases h : t.handshakes = 0 <;> simp [step, h]

theorem step_frame {bytes : Bytes} : t.step (.frame i bytes) = some t' ↔
    ∃ r, t.reads[i]? = some r ∧ t.frameArrives i r bytes = t' := by
  simp [step]

theorem step_readDone : t.step (.readDone i ec cs) = some t' ↔
    ∃ r, t.reads[i]? = some r ∧ (t.readCompletes i r ec).onRead cs ec = t' := by
  simp [step]

theorem step_writeDone : t.step (.writeDone i ec) = some t' ↔
    ∃ w, t.writes[i]? = some w ∧ (t.writeCompletes i w ec).onWrite ec = t' := by
  simp [step]

theorem step_closeDone : t.step (.closeDone i ec) = some t' ↔
    ∃ c, t.closes[i]? = some c ∧ (t.closeCompletes i c ec).onClose ec = t' := by
  simp [step]

theorem step_runPosted : t.step .runPosted = some t' ↔
    ∃ p rest, t.posted = p :: rest ∧ { t with posted := rest }.runPosted p = t' := by
  rcases h : t.posted with _ | ⟨p, rest⟩ <;> simp [step, h]

end Inversion

def Event.starting : Event → Bool
  | .enter _ | .leave _ | .resolved _ | .tcpConnected _ => true
  | _ => false

def Event.sending : Event → Bool
  | .writeDone _ _ | .closeDone _ _ | .runPosted | .notOpen => true
  | _ => false

theorem starting_step {t t' : WebsocketTransport} {e : Event} (he : t.step e = some t')
    (hs : e.starting = true) :
    ∃ en r c hs p a h, t' = { t with
      entered := en, resolves := r, connects := c, handshakes := hs, posted := p, allocated := a
      hist := h } := by
  cases e with
  | enter c =>
    obtain rfl := Option.some.inj he
    split_ifs
    · exact ⟨_, _, _, _, _, _, _, rfl⟩
    · cases c <;> exact ⟨_, _, _, _, _, _, _, rfl⟩
  | leave i =>
    obtain ⟨c, -, rfl⟩ := step_leave.mp he
    cases c <;> exact ⟨_, _, _, _, _, _, _, rfl⟩
  | resolved ec =>
    obtain ⟨-, rfl⟩ := step_resolved.mp he
    cases ec <;> exact ⟨_, _, _, _, _, _, _, rfl⟩
  | tcpConnected ec =>
    obtain ⟨-, rfl⟩ := step_tcpConnected.mp he
    cases ec <;> exact ⟨_, _, _, _, _, _, _, rfl⟩
  | handshaken ec cs | frame i bytes | readDone i ec cs | writeDone i ec | closeDone i ec
  | runPosted | notOpen => cases hs

theorem sending_step {t t' : WebsocketTransport} {e : Event} (he : t.step e = some t')
    (hs : e.sending = true) :
    ∃ q ws cl p o c h, (c = true → t.connected = true) ∧ t' = { t with
      sendMsgQueue := q, writes := ws, closes := cl, posted := p, isOpen := o, connected := c
      hist := h } := by
  cases e with
  | writeDone i ec =>
    obtain ⟨w, -, rfl⟩ := step_writeDone.mp he
    cases ec with
    | some ec => exact ⟨_, _, _, _, _, false, _, by simp, rfl⟩
    | none =>
      obtain ⟨q, ws, h, hf⟩ := onWrite_frame (t.writeCompletes i w none)
      exact ⟨q, ws, _, _, _, _, h, id, hf⟩
  | closeDone i ec =>
    obtain ⟨c, -, rfl⟩ := step_closeDone.mp he
    cases ec with
    | some ec => exact ⟨_, _, _, _, _, _, _, id, rfl⟩
    | none => exact ⟨_, _, _, _, _, false, _, by simp, rfl⟩
  | runPosted =>
    obtain ⟨p, rest, -, rfl⟩ := step_runPosted.mp he
    cases p with
    | sendDataInner data =>
      obtain ⟨q, ws, h, hf⟩ := sendDataInner_frame { t with posted := rest } data
      exact ⟨q, ws, _, _, _, _, h, id, hf⟩
    | disconnect =>
      simp only [runPosted]
      split_ifs <;> exact ⟨_, _, _, _, _, _, _, id, rfl⟩
  | notOpen =>
    obtain rfl := Option.some.inj he
    exact ⟨_, _, _, _, _, _, _, id, rfl⟩
  | enter c | leave i | resolved ec | tcpConnected ec | handshaken ec cs | frame i bytes
  | readDone i ec cs => cases hs

/-- Only a successful handshake sets `connected_`, and only completions clear it. -/
theorem connected_step {t t' : WebsocketTransport} {e : Event} (he : t.step e = some t')
    (h : t'.connected = true) : t.connected = true ∨ ∃ cs, e = .handshaken none cs := by
  cases e with
  | enter c | leave i | resolved ec | tcpConnected ec =>
    obtain ⟨en, r, c, hs, p, a, hist, rfl⟩ := starting_step he rfl
    exact Or.inl h
  | handshaken ec cs =>
    obtain ⟨-, rfl⟩ := step_handshaken.mp he
    cases ec with
    | some ec =>
      left
      exact h
    | none => exact Or.inr ⟨cs, rfl⟩
  | frame i bytes =>
    obtain ⟨r, -, rfl⟩ := step_frame.mp he
    exact Or.inl h
  | readDone i ec cs =>
    obtain ⟨r, -, rfl⟩ := step_readDone.mp he
    left
    cases ec with
    | some ec => cases h
    | none =>
      simp only [onRead, doRead, asyncRead] at h
      split_ifs at h
      · rw [calls_connected] at h
        exact h
      · exact h
  | writeDone i ec | closeDone i ec | runPosted | notOpen =>
    obtain ⟨q, ws, cl, p, o, c, hist, hc, rfl⟩ := sending_step he rfl
    exact Or.inl (hc h)

/-- Only a successful handshake makes a connection, and nothing else opens the stream. -/
theorem conn_step {t t' : WebsocketTransport} {e : Event} (he : t.step e = some t')
    (hopen : ∀ cs, e ≠ .handshaken none cs) :
    t'.conn = t.conn ∧ (t'.isOpen = true → t.isOpen = true) := by
  cases e with
  | enter c | leave i | resolved ec | tcpConnected ec =>
    obtain ⟨en, r, c, hs, p, a, hist, rfl⟩ := starting_step he rfl
    exact ⟨rfl, id⟩
  | handshaken ec cs =>
    obtain ⟨-, rfl⟩ := step_handshaken.mp he
    cases ec with
    | some ec => exact ⟨rfl, id⟩
    | none => exact absurd rfl (hopen cs)
  | frame i bytes =>
    obtain ⟨r, -, rfl⟩ := step_frame.mp he
    exact ⟨rfl, id⟩
  | readDone i ec cs =>
    obtain ⟨r, -, rfl⟩ := step_readDone.mp he
    cases ec with
    | some ec => exact ⟨rfl, fun ho => (Bool.and_eq_true_iff.mp ho).1⟩
    | none =>
      obtain ⟨q, p, a, b, rs, hist, hf⟩ := onRead_frame (t.readCompletes i r none) cs
      rw [hf]
      exact ⟨rfl, id⟩
  | writeDone i ec =>
    obtain ⟨w, -, rfl⟩ := step_writeDone.mp he
    cases ec with
    | some ec => exact ⟨rfl, fun ho => (Bool.and_eq_true_iff.mp ho).1⟩
    | none =>
      obtain ⟨q, ws, hist, hf⟩ := onWrite_frame (t.writeCompletes i w none)
      rw [hf]
      exact ⟨rfl, id⟩
  | closeDone i ec =>
    obtain ⟨c, -, rfl⟩ := step_closeDone.mp he
    cases ec <;> exact ⟨rfl, fun ho => (Bool.and_eq_true_iff.mp ho).1⟩
  | runPosted =>
    obtain ⟨p, rest, -, rfl⟩ := step_runPosted.mp he
    cases p with
    | sendDataInner data =>
      obtain ⟨q, ws, hist, hf⟩ := sendDataInner_frame { t with posted := rest } data
      rw [runPosted, hf]
      exact ⟨rfl, id⟩
    | disconnect =>
      simp only [runPosted]
      split_ifs
      · exact ⟨rfl, id⟩
      · exact ⟨rfl, fun ho => (Bool.and_eq_true_iff.mp ho).1⟩
  | notOpen =>
    obtain rfl := Option.some.inj he
    exact ⟨rfl, by simp⟩

def Event.writes : Event → Output → Bool
  | .enter _ | .leave _ => Output.byCaller
  | .resolved _ => fun
    | .log _ | .asyncConnect => true
    | _ => false
  | .tcpConnected _ => fun
    | .log _ | .asyncHandshake _ _ _ => true
    | _ => false
  | .handshaken _ _ => fun o => o.byCaller || match o with
    | .handshakeDone _ | .connectCallback | .asyncRead _ => true
    | _ => false
  | .readDone _ _ _ => fun o => o.byCaller || match o with
    | .readDone _ _ _ | .msgCallback _ | .asyncRead _ => true
    | _ => false
  | .writeDone _ _ => fun o => o.bySender || match o with
    | .writeDone _ _ _ | .log _ | .popped _ => true
    | _ => false
  | .closeDone _ _ => fun
    | .closeDone _ _ | .log _ => true
    | _ => false
  | .runPosted => fun o => o.bySender || match o with
    | .asyncClose _ => true
    | _ => false
  | .frame _ _ | .notOpen => fun _ => false

/-- A projection that sees none of an event's entries does not see its step. -/
theorem seen_step {t t' : WebsocketTransport} {e : Event} {f : Output → Option β}
    (he : t.step e = some t') (hf : ∀ o, e.writes o = true → f o = none) :
    seen f t'.hist = seen f t.hist := by
  cases e with
  | enter c =>
    obtain rfl := Option.some.inj he
    split_ifs
    · rfl
    · cases c <;> simp [refuse, output, hf (.log _) rfl]
  | leave i =>
    obtain ⟨c, -, rfl⟩ := step_leave.mp he
    cases c <;> simp [act, postSend, startResolve, asyncResolve, postClose,
      hf (.accepted _) rfl, hf (.asyncResolve _ _) rfl]
  | resolved ec =>
    obtain ⟨-, rfl⟩ := step_resolved.mp he
    cases ec <;> simp [onResolve, fail, output, asyncConnect, hf (.log _) rfl, hf .asyncConnect rfl]
  | tcpConnected ec =>
    obtain ⟨-, rfl⟩ := step_tcpConnected.mp he
    cases ec <;> simp [onConnect, fail, output, asyncHandshake, hf (.log _) rfl,
      hf (.asyncHandshake _ _ _) rfl]
  | handshaken ec cs =>
    obtain ⟨-, rfl⟩ := step_handshaken.mp he
    cases ec with
    | some ec =>
      simp [handshakeCompletes, onHandshake, fail, output, hf (.handshakeDone _) rfl,
        hf (.log _) rfl]
    | none =>
      have hcalls : ∀ o : Output, o.byCaller = true → f o = none :=
        fun o ho => hf o (Bool.or_eq_true_iff.mpr (Or.inl ho))
      simp only [onHandshake, doRead, asyncRead]
      split_ifs <;> simp [calls_seen hcalls, handshakeCompletes, output, hf (.handshakeDone _) rfl,
        hf .connectCallback rfl, hf (.asyncRead _) rfl]
  | frame i bytes =>
    obtain ⟨r, -, rfl⟩ := step_frame.mp he
    rfl
  | readDone i ec cs =>
    obtain ⟨r, -, rfl⟩ := step_readDone.mp he
    cases ec with
    | some ec =>
      simp [readCompletes, onRead, fail, output, hf (.readDone _ _ _) rfl, hf (.log _) rfl]
    | none =>
      have hcalls : ∀ o : Output, o.byCaller = true → f o = none :=
        fun o ho => hf o (Bool.or_eq_true_iff.mpr (Or.inl ho))
      simp only [onRead, doRead, asyncRead]
      split_ifs <;> simp [calls_seen hcalls, readCompletes, output, hf (.readDone _ _ _) rfl,
        hf (.msgCallback _) rfl, hf (.asyncRead _) rfl]
  | writeDone i ec =>
    obtain ⟨w, -, rfl⟩ := step_writeDone.mp he
    cases ec with
    | some ec =>
      simp [writeCompletes, onWrite, fail, output, hf (.writeDone _ _ _) rfl, hf (.log _) rfl]
    | none =>
      have hsender : ∀ o : Output, o.bySender = true → f o = none :=
        fun o ho => hf o (Bool.or_eq_true_iff.mpr (Or.inl ho))
      rw [onWrite_seen hsender (fun data => hf (.popped data) rfl)]
      simp [writeCompletes, output, hf (.writeDone _ _ _) rfl]
  | closeDone i ec =>
    obtain ⟨c, -, rfl⟩ := step_closeDone.mp he
    cases ec <;> simp [closeCompletes, onClose, fail, output, hf (.closeDone _ _) rfl,
      hf (.log _) rfl]
  | runPosted =>
    obtain ⟨p, rest, -, rfl⟩ := step_runPosted.mp he
    cases p with
    | sendDataInner data =>
      have hsender : ∀ o : Output, o.bySender = true → f o = none :=
        fun o ho => hf o (Bool.or_eq_true_iff.mpr (Or.inl ho))
      exact sendDataInner_seen hsender _ data
    | disconnect =>
      simp only [runPosted]
      split_ifs <;> simp [asyncClose, hf (.asyncClose _) rfl]
  | notOpen =>
    obtain rfl := Option.some.inj he
    rfl

/-- The reading side: reads, buffer and callbacks change only with a handshake, a
frame or the completion of a read. -/
theorem readSide_step {t t' : WebsocketTransport} {e : Event} (he : t.step e = some t')
    (hopen : ∀ cs, e ≠ .handshaken none cs) (hframe : ∀ i bytes, e ≠ .frame i bytes)
    (hread : ∀ i ec cs, e ≠ .readDone i ec cs) :
    t'.reads = t.reads ∧ t'.buffer = t.buffer ∧ t'.msgCallback = t.msgCallback := by
  cases e with
  | enter c | leave i | resolved ec | tcpConnected ec =>
    obtain ⟨en, r, c, hs, p, a, h, rfl⟩ := starting_step he rfl
    exact ⟨rfl, rfl, rfl⟩
  | handshaken ec cs =>
    obtain ⟨-, rfl⟩ := step_handshaken.mp he
    cases ec with
    | some ec => exact ⟨rfl, rfl, rfl⟩
    | none => exact absurd rfl (hopen cs)
  | frame i bytes => exact absurd rfl (hframe i bytes)
  | readDone i ec cs => exact absurd rfl (hread i ec cs)
  | writeDone i ec | closeDone i ec | runPosted | notOpen =>
    obtain ⟨q, ws, cl, p, o, c, h, -, rfl⟩ := sending_step he rfl
    exact ⟨rfl, rfl, rfl⟩

theorem fresh_eq {t : WebsocketTransport} (h : Fresh t) :
    ∃ host port subprotocol c m, t =
      { create host port subprotocol with connectCallback := c, msgCallback := m } := by
  induction h with
  | create host port subprotocol => exact ⟨host, port, subprotocol, _, _, rfl⟩
  | setConnectCallback _ ih =>
    obtain ⟨host, port, subprotocol, c, m, rfl⟩ := ih
    exact ⟨host, port, subprotocol, true, m, rfl⟩
  | setMsgCallback _ ih =>
    obtain ⟨host, port, subprotocol, c, m, rfl⟩ := ih
    exact ⟨host, port, subprotocol, c, true, rfl⟩

/-! ### Pieces of runs -/

def opening : List Event :=
  [.enter .connect, .leave 0, .resolved none, .tcpConnected none, .handshaken none []]

def sending (msg : String) : List Event := [.enter (.sendMsg msg), .leave 0, .runPosted]

end WebrtcNativeDemo.WebsocketTransport
