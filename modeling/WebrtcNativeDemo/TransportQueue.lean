import WebrtcNativeDemo.TransportWriter

/-!
# Order and progress of outgoing messages

What the refinement gives for every reachable transport: one write at a time and
of the front of the queue, messages handed over in the order in which they were
accepted, and the exact runs in which a queued message always has a writer.
-/

namespace WebrtcNativeDemo.WebsocketTransport

variable {t t' : WebsocketTransport}

theorem Sends.writes_front {s : FifoSender Msg} (h : Sends (sendView t) s) {w : Write}
    (hw : w ∈ t.writes) : t.writes = [w] ∧ t.sendMsgQueue.head? = some w.msg := by
  obtain ⟨i, hi⟩ := List.getElem?_of_mem hw
  obtain ⟨hwrites, -, -, rest, hq⟩ := h.writing hi
  have hqueue : t.sendMsgQueue = s.queue := h.queue_eq
  exact ⟨hwrites, by rw [hqueue, hq]; rfl⟩

/-- At most one write is outstanding, it writes the very string at the front of the
queue, and the front of an empty queue is never used. -/
theorem single_writer (h : system.Reachable t) :
    t.writes.length ≤ 1 ∧ (∀ w ∈ t.writes, t.sendMsgQueue.head? = some w.msg) ∧
      Output.emptyAccess ∉ t.hist := by
  obtain ⟨s, hs⟩ := sends_reachable h
  refine ⟨?_, fun w hw => (hs.writes_front hw).2, ?_⟩
  · rcases hw : t.writes with _ | ⟨w, ws⟩
    · simp
    · have hmem : w ∈ t.writes := by simp [hw]
      rw [← hw, (hs.writes_front hmem).1]
      rfl
  · intro hmem
    have hmis : Output.emptyAccess ∈ seen Output.misuse t.hist :=
      List.mem_filterMap.mpr ⟨_, hmem, rfl⟩
    have hnil : seen Output.misuse t.hist = [] := hs.misuses_eq
    simp [hnil] at hmis

theorem single_writer_open : ∃ t, system.exec (create "127.0.0.1" 8188) (opening ++ sending "a") =
    some t ∧ t.writes = [⟨1, ⟨0, "a"⟩⟩] ∧ t.writes.length ≤ 1 ∧
      (∀ w ∈ t.writes, t.sendMsgQueue.head? = some w.msg) ∧ Output.emptyAccess ∉ t.hist :=
  ⟨_, rfl, rfl, single_writer ⟨_, opening ++ sending "a", .create _ _ _, rfl⟩⟩

theorem popped_step (h : system.Reachable t) {e : Event} (he : t.step e = some t') :
    popped t'.hist = popped t.hist ∨ ∃ i w, e = .writeDone i none ∧ t.writes[i]? = some w ∧
      popped t'.hist = popped t.hist ++ [w.msg] := by
  cases e with
  | writeDone i ec =>
    obtain ⟨w, hw, rfl⟩ := step_writeDone.mp he
    cases ec with
    | some ec =>
      left
      simp [writeCompletes, onWrite, fail, output]
    | none =>
      right
      obtain ⟨s, hs⟩ := sends_reachable h
      obtain ⟨-, -, -, rest, hq⟩ := hs.writing hw
      have hqueue : t.sendMsgQueue = w.msg :: rest := hs.queue_eq.trans hq
      refine ⟨i, w, rfl, hw, ?_⟩
      cases rest with
      | nil => simp [writeCompletes, onWrite, eraseFront, output, hqueue]
      | cons data rest =>
        simp [writeCompletes, onWrite, eraseFront, writeFront, asyncWrite, output, hqueue]
  | enter c | leave i | resolved ec | tcpConnected ec | handshaken ec cs | frame i bytes
  | readDone i ec cs | closeDone i ec | runPosted | notOpen =>
    left
    apply seen_step he
    intro o ho
    cases o <;> first | rfl | cases ho

/-- Every accepted message is popped, queued or still posted, in posting order;
what is given to `async_write` is a duplicate-free initial part of the accepted list. -/
theorem sending_fifo (h : system.Reachable t) :
    accepted t.hist = popped t.hist ++ t.sendMsgQueue ++ pending t.posted ∧
      (∀ e t', t.step e = some t' → popped t'.hist = popped t.hist ∨
        ∃ i w, e = .writeDone i none ∧ t.writes[i]? = some w ∧
          popped t'.hist = popped t.hist ++ [w.msg]) ∧
      handed t.hist <+: accepted t.hist ∧ (handed t.hist).Nodup := by
  obtain ⟨s, hs⟩ := sends_reachable h
  have hacc : accepted t.hist = s.accepted := hs.accepted_eq
  have hhanded : handed t.hist = s.handed := hs.handed_eq
  have hpopped : popped t.hist = s.popped := hs.popped_eq
  have hqueue : t.sendMsgQueue = s.queue := hs.queue_eq
  have hpending : pending t.posted = s.pending := hs.pending_eq
  have haddr : (accepted t.hist).map Msg.addr = List.range t.allocated := hs.addr_eq
  have hnodup : s.accepted.Nodup := by
    apply List.Nodup.of_map Msg.addr
    rw [← hacc, haddr]
    exact List.nodup_range
  refine ⟨?_, fun e t' he => popped_step h he, ?_, ?_⟩
  · rw [hacc, hpopped, hqueue, hpending, s.conserved]
  · rw [hhanded, hacc]
    exact s.handed_prefix
  · rw [hhanded]
    exact FifoSender.handed_nodup hnodup

theorem sending_fifo_two : ∃ t, system.exec (create "127.0.0.1" 8188)
      (opening ++ sending "a" ++ sending "b" ++ [.writeDone 0 none]) = some t ∧
    popped t.hist = [⟨0, "a"⟩] ∧ t.sendMsgQueue = [⟨1, "b"⟩] ∧
    accepted t.hist = popped t.hist ++ t.sendMsgQueue ++ pending t.posted :=
  ⟨_, rfl, rfl, rfl, (sending_fifo ⟨_, opening ++ sending "a" ++ sending "b" ++ [.writeDone 0 none],
    .create _ _ _, rfl⟩).1⟩

/-! ### Queued messages and their writer -/

def NoStuckMessage (t : WebsocketTransport) : Prop :=
  t.connected = true → t.sendMsgQueue ≠ [] → t.writes ≠ []

instance (t : WebsocketTransport) : Decidable (NoStuckMessage t) :=
  inferInstanceAs (Decidable (t.connected = true → t.sendMsgQueue ≠ [] → t.writes ≠ []))

/-- No handshake succeeds on a transport one of whose writes has failed. -/
def StaysDown (t : WebsocketTransport) (e : Event) : Prop :=
  ∀ cs, e = .handshaken none cs → failedWrites t.hist = []

theorem not_noStuckMessage {data : Msg} {rest : List Msg} (hc : t.connected = true)
    (hq : t.sendMsgQueue = data :: rest) (hw : t.writes = []) : ¬ NoStuckMessage t :=
  fun h => h hc (by simp [hq]) hw

/-- A message waits without a writer exactly when a write has failed: its own
message, or one before it, is never removed from the queue. -/
theorem Sends.waits_iff {s : FifoSender Msg} (h : Sends (sendView t) s) :
    (t.sendMsgQueue ≠ [] ∧ t.writes = []) ↔ failedWrites t.hist ≠ [] := by
  have hqueue : t.sendMsgQueue = s.queue := h.queue_eq
  have hwrites : t.writes.map Write.msg = s.flight.toList := h.writes_eq
  have hfailed : s.failed = true ↔ failedWrites t.hist ≠ [] := h.failed_iff
  have hnone : t.writes = [] ↔ s.flight = none := by
    rw [← List.map_eq_nil_iff (f := Write.msg), hwrites]
    cases s.flight <;> simp
  rw [hnone, FifoSender.flight_eq_none, hqueue, ← hfailed]
  constructor
  · rintro ⟨hne, hf | hq⟩
    · exact hf
    · exact absurd hq hne
  · intro hf
    exact ⟨FifoSender.queue_ne_nil_of_failed hf, Or.inl hf⟩

theorem Sends.noStuckMessage_iff {s : FifoSender Msg} (h : Sends (sendView t) s) :
    NoStuckMessage t ↔ (t.connected = true → failedWrites t.hist = []) := by
  constructor
  · intro hn hc
    by_contra hf
    obtain ⟨hq, hw⟩ := h.waits_iff.mpr hf
    exact hn hc hq hw
  · intro hn hc hq hw
    exact h.waits_iff.mp ⟨hq, hw⟩ (hn hc)

theorem failedWrites_step {e : Event} (he : t.step e = some t') (hc : t'.connected = true) :
    failedWrites t'.hist = failedWrites t.hist := by
  cases e with
  | writeDone i ec =>
    obtain ⟨w, -, rfl⟩ := step_writeDone.mp he
    cases ec with
    | some ec => cases hc
    | none =>
      have hs : ∀ o : Output, o.bySender = true → o.failedMsg = none := by
        intro o ho
        cases o <;> first | rfl | cases ho
      rw [failedWrites, onWrite_seen hs fun _ => rfl]
      simp [writeCompletes, output]
  | enter c | leave i | resolved ec | tcpConnected ec | handshaken ec cs | frame i bytes
  | readDone i ec cs | closeDone i ec | runPosted | notOpen =>
    apply seen_step he
    intro o ho
    cases o <;> first | rfl | cases ho

/-- The runs in which a queued message always has a writer while the transport is
connected are those in which no handshake succeeds after a failed write. -/
theorem noStuckMessage_run (ht : Fresh t) (es : List Event) :
    (∀ t', system.Visits t es t' → NoStuckMessage t') ↔
      ∀ a e b, system.Takes t es a e b → StaysDown a e := by
  apply EventSystem.visits_iff_takes (I := fun t => ∃ s, Sends (sendView t) s)
    (Q := fun _ => True)
  · intro a e b he _ _ ha hP hG
    obtain ⟨s, hs⟩ := ha
    obtain ⟨s', -, hs'⟩ := sends_step hs he
    refine ⟨⟨s', hs'⟩, hs'.noStuckMessage_iff.mpr ?_⟩
    intro hc
    rw [failedWrites_step he hc]
    rcases connected_step he hc with hca | ⟨cs, rfl⟩
    · exact hs.noStuckMessage_iff.mp hP hca
    · exact hG cs rfl
  · intro a e b he _ _ ha _ hG hP
    obtain ⟨s, hs⟩ := ha
    obtain ⟨s', -, hs'⟩ := sends_step hs he
    simp only [StaysDown, not_forall] at hG
    obtain ⟨cs, rfl, hf⟩ := hG
    have hc : b.connected = true := by
      obtain ⟨-, rfl⟩ := step_handshaken.mp he
      simp only [onHandshake, doRead, asyncRead]
      split_ifs <;> simp [output]
    have hab : a.step (.handshaken none cs) = some b := he
    have hsame : failedWrites b.hist = failedWrites a.hist := failedWrites_step hab hc
    exact hf (hsame ▸ hs'.noStuckMessage_iff.mp hP hc)
  · exact fun _ _ => trivial
  · exact ⟨_, sends_fresh ht⟩
  · obtain ⟨host, port, subprotocol, c, m, rfl⟩ := fresh_eq ht
    intro hc
    cases hc

/-- A message is written, the connection is lost and made anew, and another one is
written. -/
def reconnecting : List Event :=
  opening ++ sending "a" ++ [.writeDone 0 none, .readDone 0 (some "End of file") []] ++
    opening ++ sending "b"

theorem noStuckMessage_run_reconnect :
    (∀ t', system.Visits (create "127.0.0.1" 8188) reconnecting t' → NoStuckMessage t') ∧
    (∃ t', system.exec (create "127.0.0.1" 8188) reconnecting = some t' ∧ t'.conn = 2) ∧
    ∀ a e b, system.Takes (create "127.0.0.1" 8188) reconnecting a e b → StaysDown a e := by
  have hall : ∀ t' ∈ system.visited (create "127.0.0.1" 8188) reconnecting, NoStuckMessage t' := by
    decide
  have hvisits := EventSystem.forall_visits.mpr hall
  exact ⟨hvisits, ⟨_, rfl, rfl⟩, (noStuckMessage_run (.create _ _ _) reconnecting).mp hvisits⟩

/-- A write fails, the connection is made anew: the message of the failed write is
still at the front of the queue and nobody writes it. -/
theorem stuck_after_failed_write : ∃ t, system.exec (create "127.0.0.1" 8188)
      (opening ++ sending "a" ++
        [.writeDone 0 (some "Broken pipe"), .readDone 0 (some "End of file") []] ++ opening) =
      some t ∧ ¬ NoStuckMessage t :=
  ⟨_, rfl, not_noStuckMessage rfl rfl rfl⟩

end WebrtcNativeDemo.WebsocketTransport
