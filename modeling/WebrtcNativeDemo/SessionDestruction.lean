import WebrtcNativeDemo.SessionProcess
import WebrtcNativeDemo.SessionRouting
import WebrtcNativeDemo.TransportClose

/-!
# The close of a session that is destroyed

`~JanusSession` posts the close of an open websocket and stops the loop that has to run
it. The close is started when the loop gets round to a closure of `Disconnect` before
the stop and finds the stream still open; nothing makes the destructor wait for that.
-/

namespace WebrtcNativeDemo

namespace WebsocketTransport

variable {t t' : WebsocketTransport}

theorem call_posted (t : WebsocketTransport) (c : Call) : t.posted <+: (t.call c).posted := by
  rw [call_eq]
  split_ifs <;>
  cases c <;> simp [act, refuse, postSend, startResolve, asyncResolve, postClose, output]

theorem calls_posted (t : WebsocketTransport) (cs : List Call) :
    t.posted <+: (t.calls cs).posted :=
  calls_preserve (I := fun t' => t.posted <+: t'.posted)
    (fun t' c ht => ht.trans (call_posted t' c)) cs List.prefix_rfl

/-- Until one is run, closures only join the queue of the strand at its end. -/
theorem posted_step {e : Event} (he : t.step e = some t') (hrun : e ≠ .runPosted) :
    t.posted <+: t'.posted := by
  cases e with
  | enter c =>
    obtain rfl := Option.some.inj he
    split_ifs
    · exact List.prefix_rfl
    · cases c <;> exact List.prefix_rfl
  | leave i =>
    obtain ⟨c, -, rfl⟩ := step_leave.mp he
    cases c <;> simp [act, postSend, startResolve, asyncResolve, postClose]
  | resolved ec =>
    obtain ⟨-, rfl⟩ := step_resolved.mp he
    cases ec <;> exact List.prefix_rfl
  | tcpConnected ec =>
    obtain ⟨-, rfl⟩ := step_tcpConnected.mp he
    cases ec <;> exact List.prefix_rfl
  | handshaken ec cs =>
    obtain ⟨-, rfl⟩ := step_handshaken.mp he
    cases ec with
    | some ec => exact List.prefix_rfl
    | none =>
      simp only [onHandshake, doRead, asyncRead]
      split_ifs
      · exact calls_posted
          ({ t.handshakeCompletes none with connected := true }.output .connectCallback) cs
      · exact List.prefix_rfl
  | frame i bytes =>
    obtain ⟨r, -, rfl⟩ := step_frame.mp he
    exact List.prefix_rfl
  | readDone i ec cs =>
    obtain ⟨r, -, rfl⟩ := step_readDone.mp he
    cases ec with
    | some ec => exact List.prefix_rfl
    | none =>
      simp only [onRead, doRead, asyncRead]
      split_ifs
      · exact calls_posted ((t.readCompletes i r none).output
          (.msgCallback (t.readCompletes i r none).buffer)) cs
      · exact List.prefix_rfl
  | writeDone i ec =>
    obtain ⟨w, -, rfl⟩ := step_writeDone.mp he
    cases ec with
    | some ec => exact List.prefix_rfl
    | none =>
      obtain ⟨q, ws, hist, hf⟩ := onWrite_frame (t.writeCompletes i w none)
      rw [hf]
      exact List.prefix_rfl
  | closeDone i ec =>
    obtain ⟨c, -, rfl⟩ := step_closeDone.mp he
    cases ec <;> exact List.prefix_rfl
  | runPosted => exact absurd rfl hrun
  | notOpen =>
    obtain rfl := Option.some.inj he
    exact List.prefix_rfl

theorem runPosted_step (he : t.step .runPosted = some t') :
    t'.posted = t.posted.tail ∧ ∀ conn, conn ∈ closeStarts t'.hist ↔ conn ∈ closeStarts t.hist ∨
      t.posted[0]? = some .disconnect ∧ t.isOpen = true ∧ t.conn = conn := by
  obtain ⟨c, rest, hc, rfl⟩ := step_runPosted.mp he
  cases c with
  | sendDataInner data =>
    refine ⟨?_, fun conn => ?_⟩
    · obtain ⟨q, ws, hist, hf⟩ := sendDataInner_frame { t with posted := rest } data
      rw [runPosted, hf, hc]
      rfl
    · rw [runPosted, (sendDataInner_closing { t with posted := rest } data).2]
      simp [hc]
  | disconnect =>
    by_cases ho : t.isOpen = true
    · simp [runPosted, ho, hc, asyncClose, eq_comm]
    · simp [runPosted, ho, hc]

end WebsocketTransport

namespace SessionProcess

open WebsocketTransport (Call closeStarts)

variable {F : Type} {lib : Nlohmann F} {p p' q : SessionProcess}

def Event.runsPosted : Event → Bool
  | .completion .runPosted => true
  | _ => false

theorem onTransport_ne_runPosted {e : Event} {cs : List Call} {f : WebsocketTransport.Event}
    (hf : e.onTransport cs = some f) (hrun : e.runsPosted = false) : f ≠ .runPosted := by
  rintro rfl
  cases e with
  | completion c =>
    cases c with
    | runPosted => cases hrun
    | resolved ec | tcpConnected ec | frame i bytes | writeDone i ec | closeDone i ec | notOpen =>
      cases hf
  | init | destory | destroy | disconnect | leave | stop | poll | expire | handshaken ec tsd
  | readDone i ec | waitDone ec tsd => cases hf

theorem posted_of_step {e : Event} (he : p.step lib e = some p') (hrun : e.runsPosted = false) :
    p.ws.posted <+: p'.ws.posted := by
  cases transport_moves he with
  | kept hws => rw [hws]
  | step cs hf hws => exact WebsocketTransport.posted_step hws (onTransport_ne_runPosted hf hrun)
  | calls cs hws =>
    rw [hws]
    exact WebsocketTransport.calls_posted p.ws cs
  | thrown i r msg fault hws hio =>
    rw [hws]
    exact List.prefix_rfl

theorem closeStarts_of_step {e : Event} (he : p.step lib e = some p')
    (hrun : e.runsPosted = false) : closeStarts p'.ws.hist = closeStarts p.ws.hist := by
  cases transport_moves he with
  | kept hws => rw [hws]
  | step cs hf hws =>
    exact WebsocketTransport.closeStarts_step hws (onTransport_ne_runPosted hf hrun)
  | calls cs hws =>
    rw [hws]
    exact WebsocketTransport.calls_seen (fun o ho => by cases o <;> first | rfl | cases ho) p.ws cs
  | thrown i r msg fault hws hio =>
    simp [hws, WebsocketTransport.readCompletes, WebsocketTransport.output]

theorem runPosted_moves (he : p.step lib (.completion .runPosted) = some p') :
    p.ws.step .runPosted = some p'.ws := by
  cases step_moves he with
  | handler hrun hq =>
    obtain ⟨ws, hws, rfl⟩ := Option.map_eq_some_iff.mp hq
    exact hws

theorem runsPosted_eq_true {e : Event} (h : e.runsPosted = true) :
    e = .completion .runPosted := by
  cases e with
  | completion c => cases c <;> first | rfl | cases h
  | init | destory | destroy | disconnect | leave | stop | poll | expire | handshaken ec tsd
  | readDone i ec | waitDone ec tsd => cases h

/-- A closure comes to the front of the queue as those before it are run. -/
theorem posted_exec {es : List Event} (h : (system lib).exec p es = some q) {k : ℕ}
    {c : WebsocketTransport.Posted}
    (hc : p.ws.posted[k + es.countP Event.runsPosted]? = some c) : q.ws.posted[k]? = some c := by
  induction es generalizing p with
  | nil =>
    obtain rfl := Option.some.inj h
    exact hc
  | cons e es ih =>
    obtain ⟨a, ha, hq⟩ := EventSystem.exec_cons_eq_some.mp h
    apply ih hq
    cases hrun : e.runsPosted with
    | true =>
      obtain rfl := runsPosted_eq_true hrun
      rw [(WebsocketTransport.runPosted_step (runPosted_moves ha)).1, List.getElem?_tail]
      rwa [List.countP_cons_of_pos hrun, ← Nat.add_assoc] at hc
    | false =>
      rw [List.countP_cons_of_neg (by simp [hrun])] at hc
      obtain ⟨l, hl⟩ := posted_of_step ha hrun
      have hlt : k + es.countP Event.runsPosted < p.ws.posted.length :=
        (List.getElem?_eq_some_iff.mp hc).1
      rw [← hl, List.getElem?_append_left hlt]
      exact hc

theorem closeStarts_step {e : Event} (he : p.step lib e = some p') (conn : ℕ) :
    conn ∈ closeStarts p'.ws.hist ↔ conn ∈ closeStarts p.ws.hist ∨
      e = .completion .runPosted ∧ p.ws.posted[0]? = some .disconnect ∧ p.ws.isOpen = true ∧
        p.ws.conn = conn := by
  cases hrun : e.runsPosted with
  | true =>
    obtain rfl := runsPosted_eq_true hrun
    simp [(WebsocketTransport.runPosted_step (runPosted_moves he)).2]
  | false =>
    have hne : e ≠ .completion .runPosted := by
      rintro rfl
      cases hrun
    rw [closeStarts_of_step he hrun]
    simp [hne]

/-- Within `es` the io thread comes round to a closure of `Disconnect` that waits in the
queue, and finds the stream still open on `conn`. -/
def ClosureRuns (lib : Nlohmann F) (p : SessionProcess) (es : List Event) (conn : ℕ) : Prop :=
  ∃ pre mid post a b, es = pre ++ mid ++ .completion .runPosted :: post ∧
    (system lib).exec p pre = some a ∧
    a.ws.posted[mid.countP Event.runsPosted]? = some .disconnect ∧
    (system lib).exec a mid = some b ∧ b.ws.isOpen = true ∧ b.ws.conn = conn

theorem closeStarts_mono {es : List Event} (h : (system lib).exec p es = some q) {conn : ℕ}
    (hc : conn ∈ closeStarts p.ws.hist) : conn ∈ closeStarts q.ws.hist := by
  apply EventSystem.exec_invariant (I := fun p : SessionProcess => conn ∈ closeStarts p.ws.hist)
    _ h hc
  intro a e b he ha
  exact (closeStarts_step he conn).mpr (Or.inl ha)

theorem closed_of_closureRuns {es : List Event} (h : (system lib).exec p es = some q) {conn : ℕ}
    (hr : ClosureRuns lib p es conn) : conn ∈ closeStarts q.ws.hist := by
  obtain ⟨pre, mid, post, a, b, rfl, ha, hc, hb, hopen, hconn⟩ := hr
  rw [List.append_assoc, EventSystem.exec_append, ha, Option.bind_some, EventSystem.exec_append,
    hb, Option.bind_some] at h
  obtain ⟨b', hb', hq⟩ := EventSystem.exec_cons_eq_some.mp h
  have hfront : b.ws.posted[0]? = some .disconnect := posted_exec hb (by rwa [Nat.zero_add])
  have hrun : b.step lib (.completion .runPosted) = some b' := hb'
  apply closeStarts_mono hq
  exact (closeStarts_step hrun conn).mpr (Or.inr ⟨rfl, hfront, hopen, hconn⟩)

theorem closureRuns_of_closed {es : List Event} (h : (system lib).exec p es = some q) {conn : ℕ}
    (hq : conn ∈ closeStarts q.ws.hist) :
    conn ∈ closeStarts p.ws.hist ∨ ClosureRuns lib p es conn := by
  induction es generalizing p with
  | nil =>
    obtain rfl := Option.some.inj h
    exact Or.inl hq
  | cons e es ih =>
    obtain ⟨a, ha, hes⟩ := EventSystem.exec_cons_eq_some.mp h
    rcases ih hes with hclosed | ⟨pre, mid, post, b, c, rfl, hpre, hrest⟩
    · rcases (closeStarts_step ha conn).mp hclosed with hclosed | ⟨rfl, hfront, hopen, hconn⟩
      · exact Or.inl hclosed
      · exact Or.inr ⟨[], [], es, p, p, rfl, rfl, hfront, rfl, hopen, hconn⟩
    · exact Or.inr ⟨e :: pre, mid, post, b, c, rfl,
        EventSystem.exec_cons_eq_some.mpr ⟨a, ha, hpre⟩, hrest⟩

/-- The destructor has been entered while the websocket is open, and has stopped the loop. -/
structure Destruction (lib : Nlohmann F) (p : SessionProcess) (es : List Event)
    (q : SessionProcess) : Prop where
  reachable : (system lib).Reachable p
  isOpen : p.ws.isOpen = true
  run : (system lib).exec p (.destroy :: es) = some q
  stopped : q.stopped = true

/-- A destroyed session has started the close of its open websocket exactly when it was
started before, or a closure of `Disconnect` got its turn while the stream was open. -/
theorem destruction_closes {es : List Event} (h : Destruction lib p es q) :
    p.ws.conn ∈ closeStarts q.ws.hist ↔
      p.ws.conn ∈ closeStarts p.ws.hist ∨ ClosureRuns lib p (.destroy :: es) p.ws.conn := by
  constructor
  · exact closureRuns_of_closed h.run
  · intro hc
    rcases hc with hclosed | hruns
    · exact closeStarts_mono h.run hclosed
    · exact closed_of_closureRuns h.run hruns

/-- The loop runs the two closures that are posted before it is stopped. -/
theorem destruction_closes_in_time : ∃ p q,
    Destruction JanusSession.exampleLib p [.disconnect, .leave, .completion .runPosted, .poll,
      .completion .runPosted, .poll, .stop] q ∧ p.ws.conn ∈ closeStarts q.ws.hist := by
  obtain ⟨p, q, hp, hopen, hq, hstop⟩ : ∃ p q,
      (system JanusSession.exampleLib).exec (create "127.0.0.1" 8188) (opening "a") = some p ∧
      p.ws.isOpen = true ∧
      (system JanusSession.exampleLib).exec p (.destroy :: [.disconnect, .leave,
        .completion .runPosted, .poll, .completion .runPosted, .poll, .stop]) = some q ∧
      q.stopped = true := ⟨_, _, rfl, rfl, rfl, rfl⟩
  have hruns : ClosureRuns JanusSession.exampleLib p (.destroy :: [.disconnect, .leave,
      .completion .runPosted, .poll, .completion .runPosted, .poll, .stop]) p.ws.conn := by
    obtain rfl := Option.some.inj hp
    exact ⟨[.destroy, .disconnect, .leave], [.completion .runPosted, .poll], [.poll, .stop],
      _, _, rfl, rfl, rfl, rfl, rfl, rfl⟩
  have hdestruction : Destruction JanusSession.exampleLib p [.disconnect, .leave,
      .completion .runPosted, .poll, .completion .runPosted, .poll, .stop] q :=
    ⟨⟨_, _, ⟨_, _, rfl⟩, hp⟩, hopen, hq, hstop⟩
  exact ⟨p, q, hdestruction, (destruction_closes hdestruction).mpr (Or.inr hruns)⟩

/-- The owner's thread stops the loop before it runs another handler. -/
theorem destruction_unclosed : ∃ p q,
    Destruction JanusSession.exampleLib p [.disconnect, .leave, .stop] q ∧
    p.ws.conn ∉ closeStarts q.ws.hist := by
  obtain ⟨p, q, hp, hopen, hq, hstop, hclosed⟩ : ∃ p q,
      (system JanusSession.exampleLib).exec (create "127.0.0.1" 8188) (opening "a") = some p ∧
      p.ws.isOpen = true ∧
      (system JanusSession.exampleLib).exec p (.destroy :: [.disconnect, .leave, .stop]) =
        some q ∧
      q.stopped = true ∧ closeStarts q.ws.hist = [] := ⟨_, _, rfl, rfl, rfl, rfl, rfl⟩
  refine ⟨p, q, ⟨⟨_, _, ⟨_, _, rfl⟩, hp⟩, hopen, hq, hstop⟩, ?_⟩
  rw [hclosed]
  exact List.not_mem_nil

/-- From every state in which the destructor can be called there is a run that leaves an
open websocket without a close. -/
theorem destruction_may_not_close (hp : (system lib).Reachable p) (ho : p.owner = .idle)
    (hd : p.destroying = false) (hopen : p.ws.isOpen = true)
    (hc : p.ws.conn ∉ closeStarts p.ws.hist) :
    ∃ q, Destruction lib p [.disconnect, .leave, .stop] q ∧
      p.ws.conn ∉ closeStarts q.ws.hist := by
  let a : SessionProcess := { p.destory with destroying := true }
  have hdestroy : p.step lib .destroy = some a := by simp [step, ho, hd, a]
  have hdisconnect : a.step lib .disconnect = some a.disconnect := by simp [step, a, destory]
  have hentered : a.disconnect.owner = .disconnecting ∧ a.disconnect.destroying = true ∧
      a.disconnect.ws.entered = p.ws.entered ++ [.disconnect] := by
    simp [disconnect, a, destory, hopen]
  obtain ⟨c, hfirst⟩ : ∃ c, a.disconnect.ws.entered[0]? = some c := by
    rw [hentered.2.2]
    cases p.ws.entered <;> simp
  obtain ⟨ws, hws⟩ : ∃ ws, a.disconnect.ws.step (.leave 0) = some ws :=
    ⟨_, WebsocketTransport.step_leave.mpr ⟨c, hfirst, rfl⟩⟩
  let b : SessionProcess := { a.disconnect with ws, owner := .idle }
  have hleave : a.disconnect.step lib .leave = some b := by
    simp [step, leave, hentered.1, hws, b]
  have hstop : b.step lib .stop = some { b with stopped := true } := by
    have hb : b.owner = .idle ∧ b.destroying = true := ⟨rfl, hentered.2.1⟩
    simp [step, hb]
  have hrun : (system lib).exec p (.destroy :: [.disconnect, .leave, .stop]) =
      some { b with stopped := true } :=
    EventSystem.exec_cons_eq_some.mpr ⟨a, hdestroy, EventSystem.exec_cons_eq_some.mpr
      ⟨a.disconnect, hdisconnect, EventSystem.exec_cons_eq_some.mpr ⟨b, hleave,
        EventSystem.exec_cons_eq_some.mpr ⟨_, hstop, rfl⟩⟩⟩⟩
  refine ⟨_, ⟨hp, hopen, hrun, rfl⟩, fun hclosed => ?_⟩
  rcases closureRuns_of_closed hrun hclosed with hclosed | ⟨pre, mid, post, x, y, hes, -⟩
  · exact hc hclosed
  · have hmem : Event.completion .runPosted ∈ Event.destroy :: [.disconnect, .leave, .stop] := by
      rw [hes]
      simp
    simp at hmem

end SessionProcess
end WebrtcNativeDemo
