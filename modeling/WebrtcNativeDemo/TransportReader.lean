import WebrtcNativeDemo.TransportSteps

/-!
# Delivery of received messages

`OnRead` empties `buffer_` when a message is complete and leaves it alone when the
read fails. With one read at a time, what is passed to `msg_callback_` is exactly
what was received as long as no connection is opened after a read that broke off
inside a message.
-/

namespace WebrtcNativeDemo.WebsocketTransport

structure ReadView where
  delivered : List Bytes
  received : List Bytes
  broken : List Bytes
  starts : List Bytes
  buffer : Bytes
  reads : List Bytes
  msgCallback : Bool

def readView (t : WebsocketTransport) : ReadView where
  delivered := delivered t.hist
  received := received t.hist
  broken := brokenReads t.hist
  starts := readBuffers t.hist
  buffer := t.buffer
  reads := t.reads.map Read.got
  msgCallback := t.msgCallback

/-- The callback, if there is one, was given the received messages, and every read
began with an empty buffer. -/
def ExactDelivery (t : WebsocketTransport) : Prop :=
  (t.msgCallback = true → delivered t.hist = received t.hist) ∧
    ∀ buffer ∈ readBuffers t.hist, buffer = []

instance (t : WebsocketTransport) : Decidable (ExactDelivery t) :=
  inferInstanceAs (Decidable (_ ∧ _))

def Unbroken (t : WebsocketTransport) : Prop := ∀ got ∈ brokenReads t.hist, got = []

/-- No handshake succeeds on a transport whose buffer holds a broken message. -/
def OpensClean (t : WebsocketTransport) (e : Event) : Prop :=
  ∀ cs, e = .handshaken none cs → Unbroken t

/-- The buffer holds what the outstanding read has received, and after a broken
message there is no read. -/
structure Reads (v : ReadView) : Prop where
  buffer_eq : (∀ got ∈ v.broken, got = []) → v.buffer = v.reads.flatten
  broken_buffer : ¬ (∀ got ∈ v.broken, got = []) → v.reads = [] ∧ v.buffer ≠ []

variable {t t' : WebsocketTransport}

theorem readView_step {e : Event} (he : t.step e = some t')
    (hopen : ∀ cs, e ≠ .handshaken none cs) (hframe : ∀ i bytes, e ≠ .frame i bytes)
    (hread : ∀ i ec cs, e ≠ .readDone i ec cs) : readView t' = readView t := by
  obtain ⟨hreads, hbuffer, hmsg⟩ := readSide_step he hopen hframe hread
  have hseen : ∀ f : Output → Option Bytes, (∀ o, e.writes o = true → f o = none) →
      seen f t'.hist = seen f t.hist := fun f hf => seen_step he hf
  cases e with
  | handshaken ec cs =>
    cases ec with
    | none => exact absurd rfl (hopen cs)
    | some ec =>
      obtain ⟨-, rfl⟩ := step_handshaken.mp he
      simp [readView, handshakeCompletes, onHandshake, fail, output]
  | frame i bytes => exact absurd rfl (hframe i bytes)
  | readDone i ec cs => exact absurd rfl (hread i ec cs)
  | enter c | leave i | resolved ec | tcpConnected ec | writeDone i ec | closeDone i ec
  | runPosted | notOpen =>
    have hd : delivered t'.hist = delivered t.hist :=
      hseen _ fun o ho => by cases o <;> first | rfl | cases ho
    have hr : received t'.hist = received t.hist :=
      hseen _ fun o ho => by cases o <;> first | rfl | cases ho
    have hb : brokenReads t'.hist = brokenReads t.hist :=
      hseen _ fun o ho => by cases o <;> first | rfl | cases ho
    have hs : readBuffers t'.hist = readBuffers t.hist :=
      hseen _ fun o ho => by cases o <;> first | rfl | cases ho
    simp only [readView, hd, hr, hb, hs, hreads, hbuffer, hmsg]

theorem calls_readView (t : WebsocketTransport) (cs : List Call) :
    readView (t.calls cs) = readView t := by
  have hseen : ∀ f : Output → Option Bytes, (∀ o : Output, o.byCaller = true → f o = none) →
      seen f (t.calls cs).hist = seen f t.hist := fun f hf => calls_seen hf t cs
  have hd : delivered (t.calls cs).hist = delivered t.hist :=
    hseen _ fun o ho => by cases o <;> first | rfl | cases ho
  have hr : received (t.calls cs).hist = received t.hist :=
    hseen _ fun o ho => by cases o <;> first | rfl | cases ho
  have hb : brokenReads (t.calls cs).hist = brokenReads t.hist :=
    hseen _ fun o ho => by cases o <;> first | rfl | cases ho
  have hs : readBuffers (t.calls cs).hist = readBuffers t.hist :=
    hseen _ fun o ho => by cases o <;> first | rfl | cases ho
  simp only [readView, hd, hr, hb, hs, calls_reads, calls_buffer, calls_msgCallback]

theorem doRead_readView (t : WebsocketTransport) :
    readView t.doRead = { readView t with
      starts := readBuffers t.hist ++ [t.buffer]
      reads := t.reads.map Read.got ++ [[]] } := by
  simp [readView, doRead, asyncRead]

theorem onHandshake_readView (t : WebsocketTransport) (cs : List Call) :
    readView ((t.handshakeCompletes none).onHandshake cs none) = { readView t with
      starts := readBuffers t.hist ++ [t.buffer]
      reads := t.reads.map Read.got ++ [[]] } := by
  have hview : ∀ t₁, readView t₁ = readView t → readView t₁.doRead = { readView t with
      starts := readBuffers t.hist ++ [t.buffer]
      reads := t.reads.map Read.got ++ [[]] } := by
    intro t₁ h
    have hs : readBuffers t₁.hist = readBuffers t.hist := congrArg ReadView.starts h
    have hb : t₁.buffer = t.buffer := congrArg ReadView.buffer h
    have hr : t₁.reads.map Read.got = t.reads.map Read.got := congrArg ReadView.reads h
    rw [doRead_readView, h, hs, hb, hr]
  simp only [onHandshake]
  split_ifs
  · apply hview
    rw [calls_readView]
    simp [readView, handshakeCompletes, output]
  · apply hview
    simp [readView, handshakeCompletes, output]

theorem onRead_error_readView (t : WebsocketTransport) (i : ℕ) (r : Read) (cs : List Call)
    (ec : String) :
    readView ((t.readCompletes i r (some ec)).onRead cs (some ec)) = { readView t with
      broken := brokenReads t.hist ++ [r.got]
      reads := (t.reads.eraseIdx i).map Read.got } := by
  simp [readView, readCompletes, onRead, fail, output]

theorem onRead_none_readView (t : WebsocketTransport) (i : ℕ) (r : Read) (cs : List Call) :
    readView ((t.readCompletes i r none).onRead cs none) = { readView t with
      delivered := delivered t.hist ++ if t.msgCallback then [t.buffer] else []
      received := received t.hist ++ [r.got]
      starts := readBuffers t.hist ++ [[]]
      buffer := []
      reads := (t.reads.eraseIdx i).map Read.got ++ [[]] } := by
  have hview : ∀ t₁ : WebsocketTransport, readView t₁ = { readView t with
        delivered := delivered t.hist ++ if t.msgCallback then [t.buffer] else []
        received := received t.hist ++ [r.got]
        reads := (t.reads.eraseIdx i).map Read.got } →
      readView { t₁ with buffer := t₁.buffer.drop t₁.buffer.length }.doRead = { readView t with
        delivered := delivered t.hist ++ if t.msgCallback then [t.buffer] else []
        received := received t.hist ++ [r.got]
        starts := readBuffers t.hist ++ [[]]
        buffer := []
        reads := (t.reads.eraseIdx i).map Read.got ++ [[]] } := by
    intro t₁ h
    have hd := congrArg ReadView.delivered h
    have hr := congrArg ReadView.received h
    have hb := congrArg ReadView.broken h
    have hs := congrArg ReadView.starts h
    have hg := congrArg ReadView.reads h
    have hc := congrArg ReadView.msgCallback h
    simp only [readView] at hd hr hb hs hg hc
    rw [doRead_readView]
    simp only [readView, hd, hr, hb, hs, hg, hc, List.drop_length]
  have hmsg : (t.readCompletes i r none).msgCallback = t.msgCallback := rfl
  simp only [onRead]
  by_cases hm : t.msgCallback = true
  · rw [if_pos (hmsg.trans hm)]
    apply hview
    rw [calls_readView]
    simp [readView, readCompletes, output, hm]
  · rw [if_neg (hmsg ▸ hm)]
    apply hview
    simp [readView, readCompletes, output, hm]

theorem only_read {i : ℕ} {r : Read} (h : t.reads.length ≤ 1) (hr : t.reads[i]? = some r) :
    t.reads = [r] ∧ i = 0 := by
  obtain ⟨hi, hget⟩ := List.getElem?_eq_some_iff.mp hr
  rcases hreads : t.reads with _ | ⟨a, _ | ⟨b, rest⟩⟩
  · simp [hreads] at hi
  · have hi0 : i = 0 := by
      rw [hreads] at hi
      simpa using hi
    subst hi0
    simp [hreads] at hget
    exact ⟨by rw [hget], rfl⟩
  · rw [hreads] at h
    simp at h

theorem reads_only (h : Reads (readView t)) {r : Read} (hreads : t.reads = [r]) :
    Unbroken t ∧ t.buffer = r.got := by
  have hu : Unbroken t := by
    by_contra hb
    have hnil : t.reads.map Read.got = [] := (h.broken_buffer hb).1
    simp [hreads] at hnil
  have hb : t.buffer = (t.reads.map Read.got).flatten := h.buffer_eq hu
  exact ⟨hu, by simpa [hreads] using hb⟩

theorem reads_open (h : Reads (readView t)) (hx : ExactDelivery t) (hu : Unbroken t)
    (hr : t.reads = []) (cs : List Call) :
    Reads (readView ((t.handshakeCompletes none).onHandshake cs none)) ∧
      ExactDelivery ((t.handshakeCompletes none).onHandshake cs none) := by
  have hbuffer : t.buffer = [] := by
    have hb : t.buffer = (t.reads.map Read.got).flatten := h.buffer_eq hu
    simpa [hr] using hb
  have hview := onHandshake_readView t cs
  constructor
  · rw [hview]
    refine ⟨fun _ => ?_, fun hb => absurd hu hb⟩
    simp [readView, hbuffer, hr]
  · have hd := congrArg ReadView.delivered hview
    have hrec := congrArg ReadView.received hview
    have hs := congrArg ReadView.starts hview
    have hm := congrArg ReadView.msgCallback hview
    simp only [readView] at hd hrec hs hm
    refine ⟨fun hc => by rw [hd, hrec, hx.1 (hm ▸ hc)], ?_⟩
    rw [hs]
    intro buffer hmem
    rcases List.mem_append.mp hmem with hmem | hmem
    · exact hx.2 buffer hmem
    · rw [List.mem_singleton.mp hmem, hbuffer]

theorem reads_frame (h : Reads (readView t)) {i : ℕ} {r : Read} (h1 : t.reads.length ≤ 1)
    (hr : t.reads[i]? = some r) (bytes : Bytes) :
    Reads (readView (t.frameArrives i r bytes)) := by
  obtain ⟨hreads, rfl⟩ := only_read h1 hr
  obtain ⟨hu, hbuffer⟩ := reads_only h hreads
  refine ⟨fun _ => ?_, fun hb => absurd hu hb⟩
  simp [readView, frameArrives, hreads, hbuffer]

theorem reads_message (h : Reads (readView t)) (hx : ExactDelivery t) {i : ℕ} {r : Read}
    (h1 : t.reads.length ≤ 1) (hr : t.reads[i]? = some r) (cs : List Call) :
    Reads (readView ((t.readCompletes i r none).onRead cs none)) ∧
      ExactDelivery ((t.readCompletes i r none).onRead cs none) := by
  obtain ⟨hreads, rfl⟩ := only_read h1 hr
  obtain ⟨hu, hbuffer⟩ := reads_only h hreads
  have hview := onRead_none_readView t 0 r cs
  constructor
  · rw [hview]
    refine ⟨fun _ => ?_, fun hb => absurd hu hb⟩
    simp [hreads]
  · have hd := congrArg ReadView.delivered hview
    have hrec := congrArg ReadView.received hview
    have hs := congrArg ReadView.starts hview
    have hm := congrArg ReadView.msgCallback hview
    simp only [readView] at hd hrec hs hm
    refine ⟨fun hc => by rw [hd, hrec, hx.1 (hm ▸ hc), hbuffer, if_pos (hm ▸ hc)], ?_⟩
    rw [hs]
    intro buffer hmem
    rcases List.mem_append.mp hmem with hmem | hmem
    · exact hx.2 buffer hmem
    · exact List.mem_singleton.mp hmem

theorem reads_error (h : Reads (readView t)) (hx : ExactDelivery t) {i : ℕ} {r : Read}
    (h1 : t.reads.length ≤ 1) (hr : t.reads[i]? = some r) (cs : List Call) (ec : String) :
    Reads (readView ((t.readCompletes i r (some ec)).onRead cs (some ec))) ∧
      ExactDelivery ((t.readCompletes i r (some ec)).onRead cs (some ec)) := by
  obtain ⟨hreads, rfl⟩ := only_read h1 hr
  obtain ⟨hu, hbuffer⟩ := reads_only h hreads
  have hview := onRead_error_readView t 0 r cs ec
  constructor
  · rw [hview]
    refine ⟨fun hb => ?_, fun hb => ?_⟩
    · have hgot : r.got = [] := hb r.got (by simp)
      simp [readView, hbuffer, hgot, hreads]
    · refine ⟨by simp [hreads], ?_⟩
      intro hnil
      apply hb
      intro got hmem
      rcases List.mem_append.mp hmem with hmem | hmem
      · exact hu got hmem
      · have hb' : t.buffer = [] := hnil
        rw [List.mem_singleton.mp hmem, ← hbuffer, hb']
  · have hd := congrArg ReadView.delivered hview
    have hrec := congrArg ReadView.received hview
    have hs := congrArg ReadView.starts hview
    have hm := congrArg ReadView.msgCallback hview
    simp only [readView] at hd hrec hs hm
    exact ⟨fun hc => by rw [hd, hrec, hx.1 (hm ▸ hc)], by rw [hs]; exact hx.2⟩

/-- One step of a run with one read at a time: as long as no connection is opened
on a broken message, the buffer holds the message being read and nothing else. -/
theorem reads_step {e : Event} (he : t.step e = some t') (h1 : t.reads.length ≤ 1)
    (h1' : t'.reads.length ≤ 1) (h : Reads (readView t)) (hx : ExactDelivery t)
    (hG : OpensClean t e) : Reads (readView t') ∧ ExactDelivery t' := by
  have hneutral (hv : readView t' = readView t) : Reads (readView t') ∧ ExactDelivery t' := by
    refine ⟨hv ▸ h, ?_⟩
    have hd : delivered t'.hist = delivered t.hist := congrArg ReadView.delivered hv
    have hr : received t'.hist = received t.hist := congrArg ReadView.received hv
    have hs : readBuffers t'.hist = readBuffers t.hist := congrArg ReadView.starts hv
    have hm : t'.msgCallback = t.msgCallback := congrArg ReadView.msgCallback hv
    exact ⟨fun hc => by rw [hd, hr, hx.1 (hm ▸ hc)], by rw [hs]; exact hx.2⟩
  cases e with
  | handshaken ec cs =>
    cases ec with
    | some ec => exact hneutral (readView_step he (by simp) (by simp) (by simp))
    | none =>
      obtain ⟨-, rfl⟩ := step_handshaken.mp he
      have hr : t.reads = [] := by
        have hlen := congrArg (fun v => v.reads.length) (onHandshake_readView t cs)
        simp only [readView, List.length_map, List.length_append, List.length_singleton] at hlen
        apply List.eq_nil_of_length_eq_zero
        omega
      exact reads_open h hx (hG cs rfl) hr cs
  | frame i bytes =>
    obtain ⟨r, hr, rfl⟩ := step_frame.mp he
    exact ⟨reads_frame h h1 hr bytes, hx⟩
  | readDone i ec cs =>
    obtain ⟨r, hr, rfl⟩ := step_readDone.mp he
    cases ec with
    | some ec => exact reads_error h hx h1 hr cs ec
    | none => exact reads_message h hx h1 hr cs
  | enter c | leave i | resolved ec | tcpConnected ec | writeDone i ec | closeDone i ec
  | runPosted | notOpen => exact hneutral (readView_step he (by simp) (by simp) (by simp))

theorem reads_fresh (ht : Fresh t) : Reads (readView t) ∧ ExactDelivery t := by
  obtain ⟨host, port, subprotocol, c, m, rfl⟩ := fresh_eq ht
  refine ⟨⟨fun _ => rfl, fun hb => ?_⟩, fun _ => rfl, ?_⟩
  · exact absurd (fun got hmem => by simp [readView, create] at hmem) hb
  · intro buffer hmem
    simp [create] at hmem

/-- In the runs with one read at a time, delivery is exact at every point precisely
when no handshake succeeds after a read has failed inside a message. -/
theorem exactDelivery_run (ht : Fresh t) (es : List Event)
    (hone : ∀ t', system.Visits t es t' → t'.reads.length ≤ 1) :
    (∀ t', system.Visits t es t' → ExactDelivery t') ↔
      ∀ a e b, system.Takes t es a e b → OpensClean a e := by
  obtain ⟨hI, hP⟩ := reads_fresh ht
  apply EventSystem.visits_iff_takes (I := fun t => Reads (readView t))
    (Q := fun t => t.reads.length ≤ 1)
  · intro a e b he ha hb hI hP hG
    exact reads_step he ha hb hI hP hG
  · intro a e b he ha hb hI hP hG hPb
    simp only [OpensClean, not_forall] at hG
    obtain ⟨cs, rfl, hbroken⟩ := hG
    obtain ⟨-, rfl⟩ := step_handshaken.mp he
    have hs := congrArg ReadView.starts (onHandshake_readView a cs)
    simp only [readView] at hs
    have hbuffer : a.buffer ≠ [] := (hI.broken_buffer hbroken).2
    exact hbuffer (hPb.2 a.buffer (by rw [hs]; simp))
  · exact hone
  · exact hI
  · exact hP

theorem exactDelivery_run_message :
    (∀ t', system.Visits (create "127.0.0.1" 8188).setMsgCallback
      (opening ++ [.frame 0 [123, 125], .readDone 0 none []]) t' → ExactDelivery t') ∧
    ∀ a e b, system.Takes (create "127.0.0.1" 8188).setMsgCallback
      (opening ++ [.frame 0 [123, 125], .readDone 0 none []]) a e b → OpensClean a e := by
  have hall : ∀ t' ∈ system.visited (create "127.0.0.1" 8188).setMsgCallback
      (opening ++ [.frame 0 [123, 125], .readDone 0 none []]),
        t'.reads.length ≤ 1 ∧ ExactDelivery t' := by decide
  have hvisits := EventSystem.forall_visits.mpr hall
  refine ⟨fun t' ht => (hvisits t' ht).2, ?_⟩
  exact (exactDelivery_run (.setMsgCallback (.create _ _ _)) _ fun t' ht => (hvisits t' ht).1).mp
    fun t' ht => (hvisits t' ht).2

/-- A connection breaks inside a message and the next one delivers what had arrived
of it in front of its own first message, although never two reads were outstanding. -/
theorem glued_after_reconnect :
    (∀ t', system.Visits (create "127.0.0.1" 8188).setMsgCallback (opening ++
      [.frame 0 [123], .readDone 0 (some "End of file") []] ++ opening ++
      [.frame 0 [125], .readDone 0 none []]) t' → t'.reads.length ≤ 1) ∧
    ∃ t, system.exec (create "127.0.0.1" 8188).setMsgCallback (opening ++
      [.frame 0 [123], .readDone 0 (some "End of file") []] ++ opening ++
      [.frame 0 [125], .readDone 0 none []]) = some t ∧
      t.msgCallback = true ∧ delivered t.hist = [[123, 125]] ∧ received t.hist = [[125]] ∧
      ¬ ExactDelivery t := by
  refine ⟨?_, _, rfl, rfl, rfl, rfl, fun h => ?_⟩
  · exact EventSystem.forall_visits.mpr (by decide)
  · exact absurd (h.1 rfl) (by decide)

end WebrtcNativeDemo.WebsocketTransport
