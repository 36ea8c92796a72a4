import WebrtcNativeDemo.TransportSteps

/-!
# Connection attempts

How many of `async_resolve`, `async_connect` and `async_handshake` are outstanding,
and what the flag `connected_` says about them. The flag is false during a whole
attempt, so `Connect` starts a second one beside it, and `Disconnect`, which asks
the stream alone, does not reach an attempt that has no open stream yet.
-/

namespace WebrtcNativeDemo.WebsocketTransport

variable {t t' : WebsocketTransport}

/-- The outstanding operations of the chain from `async_resolve` to the handshake. -/
def attempts (t : WebsocketTransport) : ℕ := t.resolves + t.connects + t.handshakes

@[simp] def Output.connectCallbackRun : Output → Option Unit
  | .connectCallback => some ()
  | _ => none

@[simp] def Output.established : Output → Option Unit
  | .handshakeDone none => some ()
  | _ => none

abbrev connectCallbacks (h : List Output) : List Unit := seen Output.connectCallbackRun h
abbrev established (h : List Output) : List Unit := seen Output.established h

def Event.starts (t : WebsocketTransport) : Event → ℕ
  | .leave i => if t.entered[i]? = some .connect then 1 else 0
  | .readDone _ none cs => if t.msgCallback && !t.connected then cs.count .connect else 0
  | _ => 0

def Event.ends : Event → ℕ
  | .resolved (some _) | .tcpConnected (some _) | .handshaken _ _ => 1
  | _ => 0

theorem calls_resolves (t : WebsocketTransport) (cs : List Call) :
    (t.calls cs).resolves = t.resolves + if t.connected then 0 else cs.count .connect := by
  induction cs generalizing t with
  | nil => simp [calls]
  | cons c cs ih =>
    rw [calls_cons, ih]
    have hconnected : (t.call c).connected = t.connected := calls_connected t [c]
    rw [hconnected]
    cases c with
    | sendMsg msg =>
      by_cases h : t.connected = true <;> simp [call, sendMsg, postSend, output, h]
    | connect =>
      by_cases h : t.connected = true
      · simp [call, connect, h]
      · simp [call, connect, startResolve, asyncResolve, h]
        omega
    | disconnect =>
      by_cases h : t.isOpen = true <;> simp [call, disconnect, postClose, h]

theorem act_attempts (t : WebsocketTransport) (c : Call) :
    (t.act c).attempts = t.attempts + if c = .connect then 1 else 0 := by
  cases c with
  | sendMsg msg => rfl
  | connect =>
    simp only [act, startResolve, asyncResolve, attempts, if_true]
    omega
  | disconnect => rfl

theorem attempts_step {e : Event} (he : t.step e = some t') :
    t'.attempts + e.ends = t.attempts + e.starts t := by
  cases e with
  | enter c =>
    obtain rfl := Option.some.inj he
    split_ifs
    · rfl
    · cases c <;> rfl
  | leave i =>
    obtain ⟨c, hc, rfl⟩ := step_leave.mp he
    rw [act_attempts]
    simp [Event.ends, Event.starts, hc, attempts]
  | resolved ec =>
    obtain ⟨hr, rfl⟩ := step_resolved.mp he
    cases ec <;> simp only [onResolve, asyncConnect, fail, output, attempts, Event.ends,
      Event.starts] <;> omega
  | tcpConnected ec =>
    obtain ⟨hc, rfl⟩ := step_tcpConnected.mp he
    cases ec <;> simp only [onConnect, asyncHandshake, fail, output, attempts, Event.ends,
      Event.starts] <;> omega
  | handshaken ec cs =>
    obtain ⟨hh, rfl⟩ := step_handshaken.mp he
    cases ec with
    | some ec =>
      simp only [handshakeCompletes, onHandshake, fail, output, attempts, Event.ends, Event.starts]
      omega
    | none =>
      simp only [handshakeCompletes, onHandshake, doRead, asyncRead, attempts, Event.ends,
        Event.starts]
      by_cases hc : t.connectCallback = true
      · simp only [output, hc, if_true, calls_resolves, calls_connects, calls_handshakes]
        omega
      · simp only [output, hc]
        simp
        omega
  | frame i bytes =>
    obtain ⟨r, -, rfl⟩ := step_frame.mp he
    rfl
  | readDone i ec cs =>
    obtain ⟨r, -, rfl⟩ := step_readDone.mp he
    cases ec with
    | some ec => rfl
    | none =>
      simp only [readCompletes, onRead, doRead, asyncRead, attempts, Event.ends, Event.starts]
      by_cases hm : t.msgCallback = true
      · simp only [output, hm, if_true, calls_resolves, calls_connects, calls_handshakes]
        cases hconn : t.connected <;> simp
        omega
      · simp [output, hm]
  | writeDone i ec | closeDone i ec | runPosted | notOpen =>
    obtain ⟨q, ws, cl, p, o, c, h, -, rfl⟩ := sending_step he rfl
    rfl

theorem reads_length_step {e : Event} (he : t.step e = some t') :
    (∃ cs, e = .handshaken none cs ∧ t'.reads.length = t.reads.length + 1) ∨
      ((∀ cs, e ≠ .handshaken none cs) ∧ t'.reads.length = t.reads.length) ∨
      ∃ i ec cs, e = .readDone i (some ec) cs ∧ t'.connected = false ∧
        t'.reads.length ≤ t.reads.length := by
  cases e with
  | handshaken ec cs =>
    obtain ⟨-, rfl⟩ := step_handshaken.mp he
    cases ec with
    | some ec => exact Or.inr (Or.inl ⟨by simp, rfl⟩)
    | none =>
      refine Or.inl ⟨cs, rfl, ?_⟩
      simp only [onHandshake, doRead, asyncRead]
      split_ifs <;> simp [output, handshakeCompletes]
  | frame i bytes =>
    obtain ⟨r, -, rfl⟩ := step_frame.mp he
    simp [frameArrives]
  | readDone i ec cs =>
    obtain ⟨r, hr, rfl⟩ := step_readDone.mp he
    obtain ⟨hi, -⟩ := List.getElem?_eq_some_iff.mp hr
    cases ec with
    | some ec =>
      refine Or.inr (Or.inr ⟨i, ec, cs, rfl, rfl, ?_⟩)
      exact List.length_eraseIdx_le t.reads i
    | none =>
      refine Or.inr (Or.inl ⟨by simp, ?_⟩)
      have hlen := List.length_eraseIdx_of_lt hi
      simp only [onRead, doRead, asyncRead]
      split_ifs <;> simp [output, readCompletes, hlen] <;> omega
  | enter c | leave i | resolved ec | tcpConnected ec | writeDone i ec | closeDone i ec
  | runPosted | notOpen =>
    obtain ⟨hreads, -⟩ := readSide_step he (by simp) (by simp) (by simp)
    exact Or.inr (Or.inl ⟨by simp, by rw [hreads]⟩)

theorem connectCallbacks_step {e : Event} (he : t.step e = some t') :
    (∃ cs, e = .handshaken none cs ∧ established t'.hist = established t.hist ++ [()] ∧
      connectCallbacks t'.hist =
        connectCallbacks t.hist ++ if t.connectCallback then [()] else []) ∨
      established t'.hist = established t.hist ∧
        connectCallbacks t'.hist = connectCallbacks t.hist := by
  cases e with
  | handshaken ec cs =>
    obtain ⟨-, rfl⟩ := step_handshaken.mp he
    cases ec with
    | some ec =>
      right
      simp [handshakeCompletes, onHandshake, fail, output]
    | none =>
      refine Or.inl ⟨cs, rfl, ?_⟩
      have hcalls : ∀ t₁ : WebsocketTransport,
          established (t₁.calls cs).hist = established t₁.hist ∧
            connectCallbacks (t₁.calls cs).hist = connectCallbacks t₁.hist := by
        intro t₁
        constructor <;> exact calls_seen (fun o ho => by cases o <;> first | rfl | cases ho) t₁ cs
      simp only [handshakeCompletes, onHandshake, doRead, asyncRead]
      by_cases hc : t.connectCallback = true
      · simp [output, hc, hcalls]
      · simp [output, hc]
  | enter c | leave i | resolved ec | tcpConnected ec | frame i bytes | readDone i ec cs
  | writeDone i ec | closeDone i ec | runPosted | notOpen =>
    right
    constructor <;> exact seen_step he (fun o ho => by cases o <;> first | rfl | cases ho)

/-! ### One attempt and one reader -/

/-- At most one operation of the chain and none beside `connected_`, at most one
read, and no more runs of the connect callback than established connections. -/
structure OneAttempt (t : WebsocketTransport) : Prop where
  single : t.attempts ≤ 1
  idle : t.connected = true → t.attempts = 0
  reader : t.reads.length ≤ 1
  callbacks : (connectCallbacks t.hist).length ≤ (established t.hist).length

instance (t : WebsocketTransport) : Decidable (OneAttempt t) :=
  decidable_of_iff (t.attempts ≤ 1 ∧ (t.connected = true → t.attempts = 0) ∧ t.reads.length ≤ 1 ∧
      (connectCallbacks t.hist).length ≤ (established t.hist).length)
    ⟨fun h => ⟨h.1, h.2.1, h.2.2.1, h.2.2.2⟩, fun h => ⟨h.single, h.idle, h.reader, h.callbacks⟩⟩

/-- Nothing is outstanding and nothing is connected where `async_resolve` starts, and
no read is outstanding where a handshake succeeds. -/
def StartsAlone (t : WebsocketTransport) (e : Event) : Prop :=
  (e.starts t ≠ 0 → e.starts t + t.attempts ≤ 1 ∧ t.connected = false) ∧
    ∀ cs, e = .handshaken none cs → t.reads = []

theorem callbacks_reachable (h : system.Reachable t) :
    (connectCallbacks t.hist).length ≤ (established t.hist).length := by
  apply h.invariant (I := fun t => (connectCallbacks t.hist).length ≤ (established t.hist).length)
  · intro t ht
    obtain ⟨host, port, subprotocol, c, m, rfl⟩ := fresh_eq ht
    exact Nat.le_refl _
  · intro a e b he ha
    rcases connectCallbacks_step he with ⟨cs, -, hest, hcall⟩ | ⟨hest, hcall⟩
    · rw [hest, hcall]
      split_ifs <;> simp <;> omega
    · rw [hest, hcall]
      exact ha

theorem oneAttempt_step {e : Event} (he : t.step e = some t') (hr : system.Reachable t')
    (h : OneAttempt t) (hG : StartsAlone t e) : OneAttempt t' := by
  have hcount := attempts_step he
  have hsingle := h.single
  refine ⟨?_, fun hc => ?_, ?_, callbacks_reachable hr⟩
  · by_cases hs : e.starts t = 0
    · omega
    · have := (hG.1 hs).1
      omega
  · rcases connected_step he hc with hc | ⟨cs, rfl⟩
    · -- `connected_` was set before, so there was no attempt and none has started
      have hidle := h.idle hc
      have hs : e.starts t = 0 := by
        by_contra hs
        simp [(hG.1 hs).2] at hc
      omega
    · -- the handshake that sets it was the only attempt
      simp only [Event.ends, Event.starts] at hcount
      omega
  · have hreader := h.reader
    rcases reads_length_step he with ⟨cs, rfl, hlen⟩ | ⟨-, hlen⟩ | ⟨i, ec, cs, -, -, hlen⟩
    · rw [hlen, hG.2 cs rfl]
      simp
    · omega
    · omega

theorem not_oneAttempt_step {e : Event} (he : t.step e = some t') (hG : ¬ StartsAlone t e) :
    ¬ OneAttempt t' := by
  intro h'
  apply hG
  have hcount := attempts_step he
  have hsingle := h'.single
  constructor
  · intro hs
    cases e with
    | leave i =>
      simp only [Event.ends] at hcount
      refine ⟨by omega, ?_⟩
      by_contra hc
      obtain ⟨en, r, c, hs, p, a, h, rfl⟩ := starting_step he rfl
      have hidle := h'.idle (by simpa using hc)
      omega
    | readDone i ec cs =>
      cases ec with
      | some ec => exact absurd rfl hs
      | none =>
        simp only [Event.ends] at hcount
        refine ⟨by omega, ?_⟩
        by_contra hc
        simp [Event.starts, hc] at hs
    | enter c | resolved ec | tcpConnected ec | handshaken ec cs | frame i bytes | writeDone i ec
    | closeDone i ec | runPosted | notOpen => exact absurd rfl hs
  · intro cs hcs
    subst hcs
    have hreader := h'.reader
    rcases reads_length_step he with ⟨-, -, hlen⟩ | ⟨hne, -⟩ | ⟨i, ec, cs, hne, -⟩
    · apply List.eq_nil_of_length_eq_zero
      omega
    · exact absurd rfl (hne cs)
    · cases hne

theorem oneAttempt_fresh (ht : Fresh t) : OneAttempt t := by
  obtain ⟨host, port, subprotocol, c, m, rfl⟩ := fresh_eq ht
  exact ⟨Nat.zero_le 1, fun _ => rfl, Nat.zero_le 1, Nat.le_refl _⟩

/-- One attempt and one reader in every state of a run, exactly when all of its
steps start alone. -/
theorem oneAttempt_run (ht : Fresh t) (es : List Event) :
    (∀ t', system.Visits t es t' → OneAttempt t') ↔
      ∀ a e b, system.Takes t es a e b → StartsAlone a e := by
  apply EventSystem.visits_iff_takes (I := fun _ => True) (Q := system.Reachable)
  · intro a e b he _ hb _ hP hG
    exact ⟨trivial, oneAttempt_step he hb hP hG⟩
  · intro a e b he _ _ _ _ hG
    exact not_oneAttempt_step he hG
  · exact fun t' ht' => (EventSystem.Reachable.of_start ht).visits ht'
  · trivial
  · exact oneAttempt_fresh ht

theorem oneAttempt_run_open :
    (∀ t', system.Visits (create "127.0.0.1" 8188) opening t' → OneAttempt t') ∧
      ∀ a e b, system.Takes (create "127.0.0.1" 8188) opening a e b → StartsAlone a e := by
  have hall : ∀ t' ∈ system.visited (create "127.0.0.1" 8188) opening, OneAttempt t' := by decide
  have hvisits := EventSystem.forall_visits.mpr hall
  exact ⟨hvisits, (oneAttempt_run (.create _ _ _) opening).mp hvisits⟩

/-- `Init()` twice before the first name is resolved. -/
theorem two_attempts : ∃ t, system.exec (create "127.0.0.1" 8188 "janus-protocol")
      [.enter .connect, .leave 0, .enter .connect, .leave 0] = some t ∧
    t.resolves = 2 ∧ ¬ OneAttempt t :=
  ⟨_, rfl, rfl, fun h => absurd h.single (by decide)⟩

/-! ### After Disconnect -/

def Event.callsMade : Event → List Call
  | .enter c => [c]
  | .handshaken _ cs | .readDone _ _ cs => cs
  | _ => []

/-- `Disconnect()` is called in the step, and `Connect()` not after it. -/
def Event.Disconnects (e : Event) : Prop :=
  ∃ pre post, e.callsMade = pre ++ .disconnect :: post ∧ Call.connect ∉ post

/-- `connected_` turns true, or the connect callback is invoked. -/
def Rises (a b : WebsocketTransport) : Prop :=
  (a.connected = false ∧ b.connected = true) ∨
    connectCallbacks b.hist ≠ connectCallbacks a.hist

/-- Without a further `Connect()` no step of any continuation rises. -/
def DisconnectFinal (t : WebsocketTransport) : Prop :=
  ∀ es, (∀ e ∈ es, Call.connect ∉ e.callsMade) →
    ∀ a e b, system.Takes t es a e b → ¬ Rises a b

structure NoAttempt (t : WebsocketTransport) : Prop where
  idle : t.attempts = 0
  none_entered : Call.connect ∉ t.entered

def Event.enteredAfter (t : WebsocketTransport) : Event → List Call
  | .enter c => if t.passes c then t.entered ++ [c] else t.entered
  | .leave i => t.entered.eraseIdx i
  | _ => t.entered

theorem entered_step {e : Event} (he : t.step e = some t') : t'.entered = e.enteredAfter t := by
  cases e with
  | enter c =>
    obtain rfl := Option.some.inj he
    simp only [Event.enteredAfter]
    split_ifs
    · rfl
    · cases c <;> rfl
  | leave i =>
    obtain ⟨c, -, rfl⟩ := step_leave.mp he
    cases c <;> rfl
  | resolved ec =>
    obtain ⟨-, rfl⟩ := step_resolved.mp he
    cases ec <;> rfl
  | tcpConnected ec =>
    obtain ⟨-, rfl⟩ := step_tcpConnected.mp he
    cases ec <;> rfl
  | handshaken ec cs =>
    obtain ⟨-, rfl⟩ := step_handshaken.mp he
    cases ec with
    | some ec => rfl
    | none =>
      simp only [onHandshake, doRead, asyncRead]
      split_ifs
      · exact calls_entered _ cs
      · rfl
  | frame i bytes =>
    obtain ⟨r, -, rfl⟩ := step_frame.mp he
    rfl
  | readDone i ec cs =>
    obtain ⟨r, -, rfl⟩ := step_readDone.mp he
    cases ec with
    | some ec => rfl
    | none =>
      simp only [onRead, doRead, asyncRead]
      split_ifs
      · exact calls_entered _ cs
      · rfl
  | writeDone i ec | closeDone i ec | runPosted | notOpen =>
    obtain ⟨q, ws, cl, p, o, c, h, -, rfl⟩ := sending_step he rfl
    rfl

theorem Event.connect_enteredAfter {e : Event} (hc : Call.connect ∉ e.callsMade)
    (h : Call.connect ∉ t.entered) : Call.connect ∉ e.enteredAfter t := by
  cases e with
  | enter c =>
    simp only [enteredAfter]
    split_ifs
    · have hne : Call.connect ≠ c := by simpa [callsMade] using hc
      simp [h, hne]
    · exact h
  | leave i => exact fun hmem => h (List.mem_of_mem_eraseIdx hmem)
  | resolved ec | tcpConnected ec | handshaken ec cs | frame i bytes | readDone i ec cs
  | writeDone i ec | closeDone i ec | runPosted | notOpen => exact h

theorem noAttempt_step {e : Event} (he : t.step e = some t') (hc : Call.connect ∉ e.callsMade)
    (h : NoAttempt t) : NoAttempt t' := by
  have hcount := attempts_step he
  have hidle := h.idle
  have hs : e.starts t = 0 := by
    cases e with
    | leave i =>
      have hne : t.entered[i]? ≠ some .connect :=
        fun hi => h.none_entered (List.mem_of_getElem? hi)
      simp [Event.starts, hne]
    | readDone i ec cs =>
      cases ec with
      | some ec => rfl
      | none =>
        have hzero : cs.count .connect = 0 := List.count_eq_zero.mpr hc
        simp [Event.starts, hzero]
    | enter c | resolved ec | tcpConnected ec | handshaken ec cs | frame i bytes | writeDone i ec
    | closeDone i ec | runPosted | notOpen => rfl
  refine ⟨by omega, ?_⟩
  rw [entered_step he]
  exact Event.connect_enteredAfter hc h.none_entered

theorem noAttempt_not_rises {e : Event} (he : t.step e = some t') (h : NoAttempt t) :
    ¬ Rises t t' := by
  have hclosed : ∀ cs, e ≠ .handshaken none cs := by
    intro cs hcs
    subst hcs
    obtain ⟨hh, -⟩ := step_handshaken.mp he
    have hidle := h.idle
    simp only [attempts] at hidle
    omega
  intro hrise
  rcases hrise with ⟨ha, hb⟩ | hcall
  · rcases connected_step he hb with hc | ⟨cs, hcs⟩
    · simp [ha] at hc
    · exact hclosed cs hcs
  · rcases connectCallbacks_step he with ⟨cs, hcs, -⟩ | ⟨-, hsame⟩
    · exact hclosed cs hcs
    · exact hcall hsame

theorem NoAttempt.disconnectFinal (h : NoAttempt t) : DisconnectFinal t := by
  intro es hes a e b hab
  have ha : NoAttempt a := by
    apply EventSystem.visits_invariant h _ a (EventSystem.Takes.visits_left hab)
    intro a e b he hstep ha
    exact noAttempt_step hstep (hes e he) ha
  exact noAttempt_not_rises (EventSystem.Takes.step hab) ha

/-- While connected there is a read, whose failure clears `connected_`. -/
theorem connected_reads (h : system.Reachable t) : t.connected = true → t.reads ≠ [] := by
  apply h.invariant (I := fun t => t.connected = true → t.reads ≠ [])
  · intro t ht
    obtain ⟨host, port, subprotocol, c, m, rfl⟩ := fresh_eq ht
    intro hc
    cases hc
  · intro a e b he ha hb
    rw [← List.length_pos_iff]
    rcases reads_length_step he with ⟨cs, rfl, hlen⟩ | ⟨hne, hlen⟩ | ⟨i, ec, cs, -, hfalse, -⟩
    · omega
    · rcases connected_step he hb with hc | ⟨cs, hcs⟩
      · rw [hlen]
        exact List.length_pos_iff.mpr (ha hc)
      · exact absurd hcs (hne cs)
    · simp [hfalse] at hb

theorem attempt_handshake (h : ¬ NoAttempt t) :
    ∃ es b, (∀ e ∈ es, Call.connect ∉ e.callsMade) ∧ system.exec t es = some b ∧
      b.handshakes ≠ 0 := by
  have hconnect : ∀ t : WebsocketTransport, t.connects ≠ 0 →
      ∃ b, t.step (.tcpConnected none) = some b ∧ b.handshakes ≠ 0 :=
    fun t hc => ⟨_, step_tcpConnected.mpr ⟨hc, rfl⟩, Nat.succ_ne_zero _⟩
  have hresolve : ∀ t : WebsocketTransport, t.resolves ≠ 0 →
      ∃ b, t.step (.resolved none) = some b ∧ b.connects ≠ 0 :=
    fun t hr => ⟨_, step_resolved.mpr ⟨hr, rfl⟩, Nat.succ_ne_zero _⟩
  by_cases hh : t.handshakes ≠ 0
  · exact ⟨[], t, by simp, rfl, hh⟩
  by_cases hc : t.connects ≠ 0
  · obtain ⟨b, hb, hbh⟩ := hconnect t hc
    exact ⟨[.tcpConnected none], b, by simp [Event.callsMade],
      (EventSystem.exec_singleton (S := system) t _).trans hb, hbh⟩
  by_cases hr : t.resolves ≠ 0
  · obtain ⟨b, hb, hbc⟩ := hresolve t hr
    obtain ⟨d, hd, hdh⟩ := hconnect b hbc
    refine ⟨[.resolved none, .tcpConnected none], d, by simp [Event.callsMade], ?_, hdh⟩
    exact EventSystem.exec_cons_eq_some.mpr
      ⟨b, hb, (EventSystem.exec_singleton (S := system) b _).trans hd⟩
  · have hmem : Call.connect ∈ t.entered := by
      by_contra hmem
      refine h ⟨?_, hmem⟩
      simp only [attempts]
      omega
    obtain ⟨i, hi⟩ := List.getElem?_of_mem hmem
    obtain ⟨b, hb, hbr⟩ : ∃ b, t.step (.leave i) = some b ∧ b.resolves ≠ 0 :=
      ⟨_, step_leave.mpr ⟨_, hi, rfl⟩, Nat.succ_ne_zero _⟩
    obtain ⟨d, hd, hdc⟩ := hresolve b hbr
    obtain ⟨f, hf, hfh⟩ := hconnect d hdc
    refine ⟨[.leave i, .resolved none, .tcpConnected none], f, by simp [Event.callsMade], ?_, hfh⟩
    exact EventSystem.exec_cons_eq_some.mpr ⟨b, hb, EventSystem.exec_cons_eq_some.mpr
      ⟨d, hd, (EventSystem.exec_singleton (S := system) d _).trans hf⟩⟩

/-- A handshake can complete with success as soon as the connection made before it,
if there is one, has been lost. -/
theorem handshake_rises (h : system.Reachable t) (hh : t.handshakes ≠ 0) :
    ∃ es a e b, (∀ f ∈ es ++ [e], Call.connect ∉ f.callsMade) ∧
      system.exec t es = some a ∧ system.step a e = some b ∧ Rises a b := by
  have hrise : ∀ a : WebsocketTransport, a.connected = false → a.handshakes ≠ 0 →
      ∃ b, a.step (.handshaken none []) = some b ∧ Rises a b := by
    intro a hc hh
    refine ⟨_, step_handshaken.mpr ⟨hh, rfl⟩, Or.inl ⟨hc, ?_⟩⟩
    simp only [onHandshake, doRead, asyncRead]
    split_ifs <;> rfl
  by_cases hc : t.connected = true
  · obtain ⟨r, rest, hreads⟩ := List.exists_cons_of_ne_nil (connected_reads h hc)
    have hr : t.reads[0]? = some r := by
      rw [hreads]
      rfl
    obtain ⟨a, ha, hac, hah⟩ : ∃ a, t.step (.readDone 0 (some "End of file") []) = some a ∧
        a.connected = false ∧ a.handshakes ≠ 0 := ⟨_, step_readDone.mpr ⟨r, hr, rfl⟩, rfl, hh⟩
    obtain ⟨b, hb, hrises⟩ := hrise a hac hah
    refine ⟨[.readDone 0 (some "End of file") []], a, .handshaken none [], b, ?_, ?_, hb, hrises⟩
    · simp [Event.callsMade]
    · exact (EventSystem.exec_singleton (S := system) t _).trans ha
  · obtain ⟨b, hb, hrises⟩ := hrise t (by simpa using hc) hh
    exact ⟨[], t, .handshaken none [], b, by simp [Event.callsMade], rfl, hb, hrises⟩

theorem disconnectFinal_iff (h : system.Reachable t) : DisconnectFinal t ↔ NoAttempt t := by
  constructor
  · intro hfinal
    by_contra hleft
    obtain ⟨es, b, hes, hb, hh⟩ := attempt_handshake hleft
    obtain ⟨fs, c, f, d, hfs, hc, hstep, hrises⟩ := handshake_rises (h.exec hb) hh
    refine hfinal (es ++ fs ++ [f]) ?_ c f d ?_ hrises
    · intro g hg
      rw [List.append_assoc] at hg
      rcases List.mem_append.mp hg with hg | hg
      · exact hes g hg
      · exact hfs g hg
    · exact EventSystem.takes_last (EventSystem.exec_append_eq_some hb hc) hstep
  · exact NoAttempt.disconnectFinal

/-- The attempts outstanding before the step, and those its callback starts, end
with it, and no `Connect()` is past its guard. -/
def NothingLeft (t : WebsocketTransport) (e : Event) : Prop :=
  t.attempts + e.starts t = e.ends ∧ Call.connect ∉ t.entered

theorem noAttempt_iff_nothingLeft {e : Event} (he : t.step e = some t') (hd : e.Disconnects) :
    NoAttempt t' ↔ NothingLeft t e := by
  have hentered : Call.connect ∈ t'.entered ↔ Call.connect ∈ t.entered := by
    rw [entered_step he]
    obtain ⟨pre, post, hcalls, -⟩ := hd
    cases e with
    | enter c =>
      obtain rfl : c = .disconnect := by
        rcases pre with _ | ⟨d, pre⟩ <;> simp [Event.callsMade] at hcalls
        exact hcalls.1
      simp only [Event.enteredAfter]
      split_ifs <;> simp
    | handshaken ec cs | readDone i ec cs => exact Iff.rfl
    | leave i | resolved ec | tcpConnected ec | frame i bytes | writeDone i ec | closeDone i ec
    | runPosted | notOpen => simp [Event.callsMade] at hcalls
  have hcount := attempts_step he
  constructor
  · intro h
    have hidle := h.idle
    exact ⟨by omega, fun hmem => h.none_entered (hentered.mpr hmem)⟩
  · intro h
    have hends := h.1
    exact ⟨by omega, fun hmem => h.2 (hentered.mp hmem)⟩

/-- `Disconnect()` is final exactly when nothing of an attempt is left where it is
called. -/
theorem disconnect_final (h : system.Reachable t) {e : Event} (he : t.step e = some t')
    (hd : e.Disconnects) : DisconnectFinal t' ↔ NothingLeft t e := by
  rw [disconnectFinal_iff (h.step he)]
  exact noAttempt_iff_nothingLeft he hd

theorem disconnect_final_open : ∃ t t', system.exec (create "127.0.0.1" 8188) opening = some t ∧
    t.step (.enter .disconnect) = some t' ∧
    (DisconnectFinal t' ↔ NothingLeft t (.enter .disconnect)) :=
  ⟨_, _, rfl, rfl, disconnect_final ⟨_, opening, .create _ _ _, rfl⟩ rfl ⟨[], [], rfl, by simp⟩⟩

/-- `Destory()` while the name is being resolved: the stream is not open, nothing is
posted, and the attempt goes on to call the connect callback. -/
theorem connects_after_disconnect : ∃ t t' a b,
    system.exec (create "127.0.0.1" 8188 "janus-protocol").setConnectCallback
      [.enter .connect, .leave 0] = some t ∧
    t.step (.enter .disconnect) = some t' ∧
    system.exec t' [.resolved none, .tcpConnected none] = some a ∧
    a.step (.handshaken none []) = some b ∧
    (a.connected = false ∧ b.connected = true) ∧
    connectCallbacks a.hist = [] ∧ connectCallbacks b.hist = [()] ∧ ¬ DisconnectFinal t' := by
  refine ⟨_, _, _, _, rfl, rfl, rfl, rfl, ⟨rfl, rfl⟩, rfl, rfl, fun h => ?_⟩
  refine h [.resolved none, .tcpConnected none, .handshaken none []] (by simp [Event.callsMade])
    _ (.handshaken none []) _ (⟨[_, _], List.prefix_rfl, rfl, rfl⟩) (Or.inl ⟨rfl, rfl⟩)

end WebrtcNativeDemo.WebsocketTransport
