import WebrtcNativeDemo.TransportSteps

/-!
# The flag and the connection it is about

`connected_` is one flag for all connections that a transport makes, and the handlers
that clear it do not know on which of them their operation was started. The flag
follows the latest connection in the runs in which no completion of an earlier one,
no failed handshake and no failed close arrives while it is set.
-/

namespace WebrtcNativeDemo.WebsocketTransport

@[simp] def Output.completion : Output → Option Output
  | .handshakeDone ec => some (.handshakeDone ec)
  | .readDone conn ec got => some (.readDone conn ec got)
  | .writeDone conn ec data => some (.writeDone conn ec data)
  | .closeDone conn ec => some (.closeDone conn ec)
  | _ => none

abbrev completions (h : List Output) : List Output := seen Output.completion h

/-- Completions after which `conn` is not the connection any more: another handshake,
an error of one of its operations, its close. -/
def Output.ends (conn : ℕ) : Output → Bool
  | .handshakeDone _ => true
  | .readDone c (some _) _ | .writeDone c (some _) _ | .closeDone c _ => c == conn
  | _ => false

def Upright (conn : ℕ) (l : List Output) : Prop :=
  ∃ pre post, l = pre ++ .handshakeDone none :: post ∧ ∀ o ∈ post, o.ends conn = false

/-- `connected_` says that the latest handshake has succeeded and that nothing has
ended its connection since. -/
def TracksConnection (t : WebsocketTransport) : Prop :=
  t.connected = true ↔ Upright t.conn (completions t.hist)

/-- While `connected_` is set, only the operations of the current connection report
errors, none of them a close, and only its own close completes. -/
def KeepsTrack (t : WebsocketTransport) (e : Event) : Prop :=
  t.connected = true →
    match e with
    | .handshaken ec _ => ec = none
    | .readDone i (some _) _ => ∀ r, t.reads[i]? = some r → r.conn = t.conn
    | .writeDone i (some _) => ∀ w, t.writes[i]? = some w → w.conn = t.conn
    | .closeDone i ec => ∀ c, t.closes[i]? = some c → (c.conn = t.conn ↔ ec = none)
    | _ => True

instance (t : WebsocketTransport) (e : Event) : Decidable (KeepsTrack t e) :=
  match e with
  | .handshaken ec _ => inferInstanceAs (Decidable (t.connected = true → ec = none))
  | .readDone i (some _) _ =>
    inferInstanceAs (Decidable (t.connected = true → ∀ r ∈ t.reads[i]?, r.conn = t.conn))
  | .writeDone i (some _) =>
    inferInstanceAs (Decidable (t.connected = true → ∀ w ∈ t.writes[i]?, w.conn = t.conn))
  | .closeDone i ec => inferInstanceAs (Decidable
      (t.connected = true → ∀ c ∈ t.closes[i]?, (c.conn = t.conn ↔ ec = none)))
  | .enter _ | .leave _ | .resolved _ | .tcpConnected _ | .frame _ _ | .readDone _ none _
  | .writeDone _ none | .runPosted | .notOpen => .isTrue fun _ => trivial

variable {t t' : WebsocketTransport}

theorem not_upright_nil (conn : ℕ) : ¬ Upright conn [] := by
  intro h
  obtain ⟨pre, post, hl, -⟩ := h
  simp at hl

theorem upright_append_singleton {conn : ℕ} {l : List Output} {o : Output} :
    Upright conn (l ++ [o]) ↔ o = .handshakeDone none ∨ Upright conn l ∧ o.ends conn = false := by
  constructor
  · intro h
    obtain ⟨pre, post, hl, hpost⟩ := h
    rcases List.eq_nil_or_concat post with rfl | ⟨post, o', rfl⟩
    · left
      exact (List.append_singleton_inj.mp hl).2
    · rw [List.concat_eq_append, ← List.cons_append, ← List.append_assoc] at hl
      obtain ⟨rfl, rfl⟩ := List.append_singleton_inj.mp hl
      exact Or.inr ⟨⟨pre, post, rfl, fun p hp => hpost p (by simp [hp])⟩, hpost o (by simp)⟩
  · intro h
    rcases h with rfl | ⟨⟨pre, post, rfl, hpost⟩, ho⟩
    · exact ⟨l, [], rfl, by simp⟩
    · refine ⟨pre, post ++ [o], by simp, ?_⟩
      intro p hp
      rcases List.mem_append.mp hp with hp | hp
      · exact hpost p hp
      · exact List.mem_singleton.mp hp ▸ ho

theorem TracksConnection.of_eq (h : TracksConnection t) (hc : t'.connected = t.connected)
    (hconn : t'.conn = t.conn) (hl : completions t'.hist = completions t.hist) :
    TracksConnection t' := by
  rw [TracksConnection, hc, hconn, hl]
  exact h

theorem TracksConnection.append (h : TracksConnection t) {o : Output} (hconn : t'.conn = t.conn)
    (hl : completions t'.hist = completions t.hist ++ [o]) (ho : o ≠ .handshakeDone none) :
    TracksConnection t' ↔
      (t'.connected = true ↔ t.connected = true ∧ o.ends t.conn = false) := by
  have hold : t.connected = true ↔ Upright t.conn (completions t.hist) := h
  rw [TracksConnection, hconn, hl, upright_append_singleton, ← hold]
  simp [ho]

theorem calls_completions (t : WebsocketTransport) (cs : List Call) :
    completions (t.calls cs).hist = completions t.hist :=
  calls_seen (fun o ho => by cases o <;> first | rfl | cases ho) t cs

theorem completions_silent {e : Event} (he : t.step e = some t')
    (hf : ∀ o, e.writes o = true → o.completion = none) :
    completions t'.hist = completions t.hist := seen_step he hf

theorem handshaken_tracks {cs : List Call} (ec : ErrorCode) (h : TracksConnection t) :
    TracksConnection ((t.handshakeCompletes ec).onHandshake cs ec) ↔
      KeepsTrack t (.handshaken ec cs) := by
  cases ec with
  | some ec =>
    refine Iff.trans (h.append (o := .handshakeDone (some ec)) rfl
      (by simp [handshakeCompletes, onHandshake, fail, output]) (by simp)) ?_
    simp [handshakeCompletes, onHandshake, fail, output, Output.ends, KeepsTrack]
  | none =>
    have hl : completions ((t.handshakeCompletes none).onHandshake cs none).hist =
        completions t.hist ++ [.handshakeDone none] := by
      simp only [onHandshake, doRead, asyncRead]
      split_ifs <;> simp [calls_completions, handshakeCompletes, output]
    have hc : ((t.handshakeCompletes none).onHandshake cs none).connected = true := by
      obtain ⟨r, p, a, rs, hist, hf⟩ := onHandshake_frame (t.handshakeCompletes none) cs
      rw [hf]
    have htracks : TracksConnection ((t.handshakeCompletes none).onHandshake cs none) := by
      rw [TracksConnection, hl]
      exact iff_of_true hc (upright_append_singleton.mpr (Or.inl rfl))
    exact iff_of_true htracks fun _ => rfl

theorem readDone_tracks {i : ℕ} {r : Read} {cs : List Call} (ec : ErrorCode)
    (hr : t.reads[i]? = some r) (h : TracksConnection t) :
    TracksConnection ((t.readCompletes i r ec).onRead cs ec) ↔
      KeepsTrack t (.readDone i ec cs) := by
  cases ec with
  | some ec =>
    refine Iff.trans (h.append (o := .readDone r.conn (some ec) r.got) rfl
      (by simp [readCompletes, onRead, fail, output]) (by simp)) ?_
    simp [onRead, fail, output, Output.ends, KeepsTrack, hr]
  | none =>
    obtain ⟨q, p, a, b, rs, hist, hf⟩ := onRead_frame (t.readCompletes i r none) cs
    have hconn : ((t.readCompletes i r none).onRead cs none).conn = t.conn := by
      rw [hf]
      rfl
    have hc : ((t.readCompletes i r none).onRead cs none).connected = t.connected := by
      rw [hf]
      rfl
    have hl : completions ((t.readCompletes i r none).onRead cs none).hist =
        completions t.hist ++ [.readDone r.conn none r.got] := by
      simp only [onRead, doRead, asyncRead]
      split_ifs <;> simp [calls_completions, readCompletes, output]
    rw [h.append hconn hl (by simp)]
    simp [hc, Output.ends, KeepsTrack]

theorem writeDone_tracks {i : ℕ} {w : Write} (ec : ErrorCode) (hw : t.writes[i]? = some w)
    (h : TracksConnection t) :
    TracksConnection ((t.writeCompletes i w ec).onWrite ec) ↔ KeepsTrack t (.writeDone i ec) := by
  cases ec with
  | some ec =>
    refine Iff.trans (h.append (o := .writeDone w.conn (some ec) w.msg) rfl
      (by simp [writeCompletes, onWrite, fail, output]) (by simp)) ?_
    simp [onWrite, fail, output, Output.ends, KeepsTrack, hw]
  | none =>
    obtain ⟨q, ws, hist, hf⟩ := onWrite_frame (t.writeCompletes i w none)
    have hl : completions ((t.writeCompletes i w none).onWrite none).hist =
        completions t.hist ++ [.writeDone w.conn none w.msg] := by
      have hsender : ∀ o : Output, o.bySender = true → o.completion = none := by
        intro o ho
        cases o <;> first | rfl | cases ho
      rw [completions, onWrite_seen hsender fun _ => rfl]
      simp [writeCompletes, output]
    have hconn : ((t.writeCompletes i w none).onWrite none).conn = t.conn := by
      rw [hf]
      rfl
    have hc : ((t.writeCompletes i w none).onWrite none).connected = t.connected := by
      rw [hf]
      rfl
    rw [h.append hconn hl (by simp)]
    simp [hc, Output.ends, KeepsTrack]

theorem closeDone_tracks {i : ℕ} {c : Close} (ec : ErrorCode) (hcl : t.closes[i]? = some c)
    (h : TracksConnection t) :
    TracksConnection ((t.closeCompletes i c ec).onClose ec) ↔ KeepsTrack t (.closeDone i ec) := by
  refine Iff.trans (h.append (o := .closeDone c.conn ec) (by cases ec <;> rfl)
    (by cases ec <;> simp [closeCompletes, onClose, fail, output]) (by simp)) ?_
  cases ec with
  | some ec => simp [closeCompletes, onClose, fail, output, Output.ends, KeepsTrack, hcl]
  | none => simp [onClose, output, Output.ends, KeepsTrack, hcl]

theorem tracksConnection_step {e : Event} (he : t.step e = some t') (h : TracksConnection t) :
    TracksConnection t' ↔ KeepsTrack t e := by
  cases e with
  | handshaken ec cs =>
    obtain ⟨-, rfl⟩ := step_handshaken.mp he
    exact handshaken_tracks ec h
  | readDone i ec cs =>
    obtain ⟨r, hr, rfl⟩ := step_readDone.mp he
    exact readDone_tracks ec hr h
  | writeDone i ec =>
    obtain ⟨w, hw, rfl⟩ := step_writeDone.mp he
    exact writeDone_tracks ec hw h
  | closeDone i ec =>
    obtain ⟨c, hc, rfl⟩ := step_closeDone.mp he
    exact closeDone_tracks ec hc h
  | enter c | leave i | resolved ec | tcpConnected ec =>
    have hl : completions t'.hist = completions t.hist :=
      completions_silent he fun o ho => by cases o <;> first | rfl | cases ho
    obtain ⟨en, r, c, hs, p, a, hist, rfl⟩ := starting_step he rfl
    exact iff_of_true (h.of_eq rfl rfl hl) fun _ => trivial
  | frame i bytes =>
    obtain ⟨r, -, rfl⟩ := step_frame.mp he
    exact iff_of_true (h.of_eq rfl rfl rfl) fun _ => trivial
  | runPosted =>
    have hl : completions t'.hist = completions t.hist :=
      completions_silent he fun o ho => by cases o <;> first | rfl | cases ho
    obtain ⟨p, rest, -, rfl⟩ := step_runPosted.mp he
    refine iff_of_true ?_ fun _ => trivial
    cases p with
    | sendDataInner data =>
      obtain ⟨q, ws, hist, hf⟩ := sendDataInner_frame { t with posted := rest } data
      exact h.of_eq (by rw [runPosted, hf]) (by rw [runPosted, hf]) hl
    | disconnect =>
      refine h.of_eq ?_ ?_ hl <;>
      · simp only [runPosted]
        split_ifs <;> rfl
  | notOpen =>
    obtain rfl := Option.some.inj he
    exact iff_of_true (h.of_eq rfl rfl rfl) fun _ => trivial

theorem tracksConnection_fresh (ht : Fresh t) : TracksConnection t := by
  obtain ⟨host, port, subprotocol, c, m, rfl⟩ := fresh_eq ht
  exact iff_of_false (by simp [create]) (not_upright_nil _)

/-- `connected_` follows the connection in every state of a run, exactly when nothing
else completes while it is set. -/
theorem tracksConnection_run (ht : Fresh t) (es : List Event) :
    (∀ t', system.Visits t es t' → TracksConnection t') ↔
      ∀ a e b, system.Takes t es a e b → KeepsTrack a e := by
  apply EventSystem.visits_iff_takes (I := fun _ => True) (Q := fun _ => True)
  · intro a e b he _ _ _ hP hG
    exact ⟨trivial, (tracksConnection_step he hP).mpr hG⟩
  · intro a e b he _ _ _ hP hG hP'
    exact hG ((tracksConnection_step he hP).mp hP')
  · exact fun _ _ => trivial
  · trivial
  · exact tracksConnection_fresh ht

theorem tracksConnection_run_lost :
    (∀ a e b, system.Takes (create "127.0.0.1" 8188)
        (opening ++ [.readDone 0 (some "End of file") []] ++ opening) a e b → KeepsTrack a e) ∧
      ∀ t', system.Visits (create "127.0.0.1" 8188)
        (opening ++ [.readDone 0 (some "End of file") []] ++ opening) t' → TracksConnection t' := by
  have hall : ∀ x ∈ system.taken (create "127.0.0.1" 8188)
      (opening ++ [.readDone 0 (some "End of file") []] ++ opening), KeepsTrack x.1 x.2.1 := by
    decide
  have htakes := EventSystem.forall_takes.mpr hall
  exact ⟨htakes, (tracksConnection_run (.create _ _ _) _).mpr htakes⟩

/-- The write of a lost connection fails when the next connection is established: the
flag is cleared, and nothing has happened to that connection. -/
theorem cleared_by_late_write : ∃ t, system.exec (create "127.0.0.1" 8188)
      (opening ++ sending "a" ++ [.readDone 0 (some "End of file") []] ++ opening ++
        [.writeDone 0 (some "Broken pipe")]) = some t ∧
    t.connected = false ∧ t.isOpen = true ∧ ¬ TracksConnection t := by
  refine ⟨_, rfl, rfl, rfl, fun h => ?_⟩
  have hup : Upright 2 [.handshakeDone none, .readDone 1 (some "End of file") [],
      .handshakeDone none, .writeDone 1 (some "Broken pipe") ⟨0, "a"⟩] :=
    ⟨[.handshakeDone none, .readDone 1 (some "End of file") []],
      [.writeDone 1 (some "Broken pipe") ⟨0, "a"⟩], rfl, by simp [Output.ends]⟩
  cases h.mpr hup

/-- A close that fails leaves the flag set. -/
theorem set_after_failed_close : ∃ t, system.exec (create "127.0.0.1" 8188)
      (opening ++ [.enter .disconnect, .leave 0, .runPosted,
        .closeDone 0 (some "Connection reset by peer")]) = some t ∧
    t.connected = true ∧ ¬ TracksConnection t := by
  refine ⟨_, rfl, rfl, fun h => ?_⟩
  have hup : Upright 1 ([.handshakeDone none] ++
      [.closeDone 1 (some "Connection reset by peer")]) := h.mp rfl
  rcases upright_append_singleton.mp hup with hne | ⟨-, hends⟩
  · cases hne
  · cases hends

end WebrtcNativeDemo.WebsocketTransport
