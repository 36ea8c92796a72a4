import Mathlib.Data.List.Nodup
import WebrtcNativeDemo.TransportSteps

/-!
# Closes

`Disconnect` asks `is_open()` before it posts its closure, and the closure asks again
before it starts the close. The stream stays open while a close waits for a write, so
both questions are answered yes a second time, and a second close is started.
-/

namespace WebrtcNativeDemo.WebsocketTransport

variable {t t' : WebsocketTransport}

@[simp] def Output.closeStarted : Output → Option ℕ
  | .asyncClose conn => some conn
  | _ => none

abbrev closeStarts (h : List Output) : List ℕ := seen Output.closeStarted h

/-- At most one close is outstanding, and no connection was closed twice. -/
structure OneClose (t : WebsocketTransport) : Prop where
  single : t.closes.length ≤ 1
  once : (closeStarts t.hist).Nodup

instance (t : WebsocketTransport) : Decidable (OneClose t) :=
  decidable_of_iff (t.closes.length ≤ 1 ∧ (closeStarts t.hist).Nodup)
    ⟨fun h => ⟨h.1, h.2⟩, fun h => ⟨h.single, h.once⟩⟩

/-- The closure of `Disconnect` finds the stream open only when no close is outstanding. -/
def ClosesAlone (t : WebsocketTransport) (e : Event) : Prop :=
  e = .runPosted → t.posted.head? = some .disconnect → t.isOpen = true → t.closes = []

/-- As long as the stream is open, a close started on it has not completed. -/
structure Closing (t : WebsocketTransport) : Prop where
  started_le : ∀ conn ∈ closeStarts t.hist, conn ≤ t.conn
  waiting : t.isOpen = true → t.conn ∈ closeStarts t.hist → ⟨t.conn⟩ ∈ t.closes

theorem closeStarts_step {e : Event} (he : t.step e = some t') (hrun : e ≠ .runPosted) :
    closeStarts t'.hist = closeStarts t.hist := by
  apply seen_step he
  intro o ho
  cases e with
  | runPosted => exact absurd rfl hrun
  | enter c | leave i | resolved ec | tcpConnected ec | handshaken ec cs | frame i bytes
  | readDone i ec cs | writeDone i ec | closeDone i ec | notOpen =>
    cases o <;> first | rfl | cases ho

theorem sendDataInner_closing (t : WebsocketTransport) (data : Msg) :
    (t.sendDataInner data).closes = t.closes ∧
      closeStarts (t.sendDataInner data).hist = closeStarts t.hist := by
  have hs : closeStarts (t.sendDataInner data).hist = closeStarts t.hist :=
    sendDataInner_seen (fun o ho => by cases o <;> first | rfl | cases ho) t data
  obtain ⟨q, ws, hist, hf⟩ := sendDataInner_frame t data
  rw [hf] at hs ⊢
  exact ⟨rfl, hs⟩

theorem closeDone_closing {i : ℕ} {c : Close} (ec : ErrorCode) :
    ((t.closeCompletes i c ec).onClose ec).closes = t.closes.eraseIdx i ∧
      (((t.closeCompletes i c ec).onClose ec).isOpen = true → c.conn ≠ t.conn) := by
  cases ec <;> simp [closeCompletes, onClose, fail, output]

theorem closes_step {e : Event} (he : t.step e = some t') (hclose : ∀ i ec, e ≠ .closeDone i ec)
    (hrun : e ≠ .runPosted) : t'.closes = t.closes := by
  cases e with
  | enter c | leave i | resolved ec | tcpConnected ec =>
    obtain ⟨en, r, c, hs', p, a, hist, rfl⟩ := starting_step he rfl
    rfl
  | handshaken ec cs =>
    obtain ⟨-, rfl⟩ := step_handshaken.mp he
    cases ec with
    | some ec => rfl
    | none =>
      obtain ⟨r, p, a, rs, hist, hf⟩ := onHandshake_frame (t.handshakeCompletes none) cs
      rw [hf]
      rfl
  | frame i bytes =>
    obtain ⟨r, -, rfl⟩ := step_frame.mp he
    rfl
  | readDone i ec cs =>
    obtain ⟨r, -, rfl⟩ := step_readDone.mp he
    cases ec with
    | some ec => rfl
    | none =>
      obtain ⟨q, p, a, b, rs, hist, hf⟩ := onRead_frame (t.readCompletes i r none) cs
      rw [hf]
      rfl
  | writeDone i ec =>
    obtain ⟨w, -, rfl⟩ := step_writeDone.mp he
    cases ec with
    | some ec => rfl
    | none =>
      obtain ⟨q, ws, hist, hf⟩ := onWrite_frame (t.writeCompletes i w none)
      rw [hf]
      rfl
  | closeDone i ec => exact absurd rfl (hclose i ec)
  | runPosted => exact absurd rfl hrun
  | notOpen =>
    obtain rfl := Option.some.inj he
    rfl

theorem Closing.of_eq (h : Closing t) (hcl : t'.closes = t.closes) (hconn : t'.conn = t.conn)
    (hs : closeStarts t'.hist = closeStarts t.hist) (ho : t'.isOpen = true → t.isOpen = true) :
    Closing t' := by
  refine ⟨?_, fun hopen => ?_⟩ <;> rw [hs, hconn]
  · exact h.started_le
  · rw [hcl]
    exact h.waiting (ho hopen)

theorem closing_step {e : Event} (he : t.step e = some t') (h : Closing t) : Closing t' := by
  cases e with
  | handshaken ec cs =>
    have hcl := closes_step he (by simp) (by simp)
    have hs := closeStarts_step he (by simp)
    cases ec with
    | some ec =>
      obtain ⟨hconn, ho⟩ := conn_step he (by simp)
      exact h.of_eq hcl hconn hs ho
    | none =>
      obtain ⟨-, rfl⟩ := step_handshaken.mp he
      obtain ⟨r, p, a, rs, hist, hf⟩ := onHandshake_frame (t.handshakeCompletes none) cs
      have hconn : ((t.handshakeCompletes none).onHandshake cs none).conn = t.conn + 1 := by
        rw [hf]
        rfl
      -- no close was started on the connection that is new
      refine ⟨?_, ?_⟩ <;> rw [hs, hconn]
      · intro conn hmem
        exact Nat.le_succ_of_le (h.started_le conn hmem)
      · intro _ hmem
        exact absurd (h.started_le _ hmem) (Nat.not_succ_le_self _)
  | closeDone i ec =>
    have hs := closeStarts_step he (by simp)
    obtain ⟨hconn, hopen⟩ := conn_step he (by simp)
    obtain ⟨c, hc, rfl⟩ := step_closeDone.mp he
    obtain ⟨hcl, hne⟩ := closeDone_closing (t := t) (i := i) (c := c) ec
    refine ⟨?_, fun ho => ?_⟩ <;> rw [hs, hconn]
    · exact h.started_le
    · intro hmem
      -- the close that has completed was one of an earlier connection
      obtain ⟨j, hj⟩ := List.getElem?_of_mem (h.waiting (hopen ho) hmem)
      rw [hcl]
      apply List.mem_eraseIdx_iff_getElem?.mpr
      refine ⟨j, fun hji => ?_, hj⟩
      rw [hji, hc] at hj
      exact hne ho (congrArg Close.conn (Option.some.inj hj))
  | runPosted =>
    obtain ⟨hconn, ho⟩ := conn_step he (by simp)
    obtain ⟨p, rest, -, rfl⟩ := step_runPosted.mp he
    cases p with
    | sendDataInner data =>
      obtain ⟨hcl, hs⟩ := sendDataInner_closing { t with posted := rest } data
      exact h.of_eq hcl hconn hs ho
    | disconnect =>
      simp only [runPosted]
      split_ifs
      · exact ⟨h.started_le, h.waiting⟩
      · refine ⟨fun conn hmem => ?_, fun _ _ => by simp [asyncClose]⟩
        have hstarted : conn ∈ closeStarts t.hist ∨ conn = t.conn := by
          simpa [asyncClose] using hmem
        rcases hstarted with hmem | rfl
        · exact h.started_le conn hmem
        · exact Nat.le_refl _
  | enter c | leave i | resolved ec | tcpConnected ec | frame i bytes | readDone i ec cs
  | writeDone i ec | notOpen =>
    obtain ⟨hconn, ho⟩ := conn_step he (by simp)
    exact h.of_eq (closes_step he (by simp) (by simp)) hconn (closeStarts_step he (by simp)) ho

theorem OneClose.of_eq (h : OneClose t) (hcl : t'.closes.length ≤ t.closes.length)
    (hs : closeStarts t'.hist = closeStarts t.hist) : OneClose t' :=
  ⟨hcl.trans h.single, hs ▸ h.once⟩

/-- The closure of `Disconnect` on an open stream starts the only close exactly when
none is outstanding. -/
theorem asyncClose_oneClose (hI : Closing t) (h : OneClose t) (ho : t.isOpen = true) :
    OneClose t.asyncClose ↔ t.closes = [] := by
  constructor
  · intro h'
    have hlen : t.closes.length + 1 ≤ 1 := by simpa [asyncClose] using h'.single
    exact List.eq_nil_of_length_eq_zero (by omega)
  · intro hcl
    have hnew : t.conn ∉ closeStarts t.hist := by
      intro hmem
      simpa [hcl] using hI.waiting ho hmem
    refine ⟨by simp [asyncClose, hcl], ?_⟩
    have hstarts : closeStarts t.asyncClose.hist = closeStarts t.hist ++ [t.conn] := by
      simp [asyncClose]
    rw [hstarts]
    simpa using List.Nodup.concat hnew h.once

theorem oneClose_step {e : Event} (he : t.step e = some t') (hI : Closing t) (h : OneClose t) :
    OneClose t' ↔ ClosesAlone t e := by
  cases e with
  | closeDone i ec =>
    have hs := closeStarts_step he (by simp)
    refine iff_of_true (h.of_eq ?_ hs) (by simp [ClosesAlone])
    obtain ⟨c, hc, rfl⟩ := step_closeDone.mp he
    rw [(closeDone_closing ec).1]
    exact List.length_eraseIdx_le t.closes i
  | runPosted =>
    obtain ⟨p, rest, hp, rfl⟩ := step_runPosted.mp he
    cases p with
    | sendDataInner data =>
      obtain ⟨hcl, hs⟩ := sendDataInner_closing { t with posted := rest } data
      exact iff_of_true (h.of_eq (Nat.le_of_eq (congrArg _ hcl)) hs) (by simp [ClosesAlone, hp])
    | disconnect =>
      by_cases ho : t.isOpen = true
      · have hiff := asyncClose_oneClose (t := { t with posted := rest })
          ⟨hI.started_le, hI.waiting⟩ ⟨h.single, h.once⟩ ho
        simpa [runPosted, ClosesAlone, hp, ho] using hiff
      · refine iff_of_true ?_ (by simp [ClosesAlone, ho])
        have hsame : OneClose { t with posted := rest } := h.of_eq (Nat.le_refl _) rfl
        simpa [runPosted, ho] using hsame
  | enter c | leave i | resolved ec | tcpConnected ec | handshaken ec cs | frame i bytes
  | readDone i ec cs | writeDone i ec | notOpen =>
    have hcl := closes_step he (by simp) (by simp)
    have hs := closeStarts_step he (by simp)
    exact iff_of_true (h.of_eq (Nat.le_of_eq (congrArg _ hcl)) hs) (by simp [ClosesAlone])

/-- A run never has two closes outstanding, nor two on one connection, exactly when
the closures of `Disconnect` find no close outstanding on an open stream. -/
theorem oneClose_run (ht : Fresh t) (es : List Event) :
    (∀ t', system.Visits t es t' → OneClose t') ↔
      ∀ a e b, system.Takes t es a e b → ClosesAlone a e := by
  obtain ⟨host, port, subprotocol, c, m, rfl⟩ := fresh_eq ht
  apply EventSystem.visits_iff_takes (I := Closing) (Q := fun _ => True)
  · intro a e b he _ _ hI hP hG
    exact ⟨closing_step he hI, (oneClose_step he hI hP).mpr hG⟩
  · intro a e b he _ _ hI hP hG hP'
    exact hG ((oneClose_step he hI hP).mp hP')
  · exact fun _ _ => trivial
  · exact ⟨by simp [create], by simp [create]⟩
  · exact ⟨by simp [create], by simp [create]⟩

def disconnecting : List Event := [.enter .disconnect, .leave 0]

/-- `Disconnect()` twice while nothing is being written. -/
def disconnectingTwice : List Event :=
  opening ++ disconnecting ++ disconnecting ++ [.runPosted, .runPosted]

theorem oneClose_run_idle :
    (∀ t', system.Visits (create "127.0.0.1" 8188) disconnectingTwice t' → OneClose t') ∧
      ∀ a e b, system.Takes (create "127.0.0.1" 8188) disconnectingTwice a e b →
        ClosesAlone a e := by
  have hall : ∀ t' ∈ system.visited (create "127.0.0.1" 8188) disconnectingTwice, OneClose t' := by
    decide
  have hvisits := EventSystem.forall_visits.mpr hall
  exact ⟨hvisits, (oneClose_run (.create _ _ _) disconnectingTwice).mp hvisits⟩

/-- `Destory()` twice while a message is being written. -/
theorem two_closes : ∃ t, system.exec (create "127.0.0.1" 8188 "janus-protocol")
      (opening ++ sending "a" ++ disconnecting ++ disconnecting ++ [.runPosted, .runPosted]) =
      some t ∧
    t.closes.length = 2 ∧ closeStarts t.hist = [1, 1] ∧ ¬ OneClose t :=
  ⟨_, rfl, rfl, rfl, fun h => absurd h.single (by decide)⟩

end WebrtcNativeDemo.WebsocketTransport
