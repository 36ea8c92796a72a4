import WebrtcNativeDemo.SessionProcess
import WebrtcNativeDemo.SessionRouting

/-!
# The life of the io thread

`run()` is called once and returns when it finds nothing outstanding. What the
owner's thread starts after that is never completed. The io thread outlives its work
exactly in the runs in which the owner never starts an operation behind its back.
-/

namespace WebrtcNativeDemo.SessionProcess

variable {F : Type} {lib : Nlohmann F} {p p' : SessionProcess}

/-! ### Work and the io thread -/

theorem leave_outstanding {ws : WebsocketTransport} (h : p.ws.step (.leave 0) = some ws)
    (owner : Owner) : ({ p with ws, owner } : SessionProcess).outstanding = p.outstanding + 1 := by
  obtain ⟨c, -, rfl⟩ := WebsocketTransport.step_leave.mp h
  cases c <;> simp only [outstanding, WebsocketTransport.act, WebsocketTransport.postSend,
    WebsocketTransport.startResolve, WebsocketTransport.asyncResolve,
    WebsocketTransport.postClose, List.length_append, List.length_singleton] <;> omega

/-- Before `ioc_.stop()` the io thread has not returned from `run()` with something
outstanding. An exception (`terminated`) is no return: it leaves the thread function, and
`std::terminate` ends the whole process. -/
def LoopAlive (p : SessionProcess) : Prop :=
  p.stopped = false → p.outstanding ≠ 0 → p.io ≠ .returned

instance (p : SessionProcess) : Decidable (LoopAlive p) :=
  inferInstanceAs (Decidable (p.stopped = false → p.outstanding ≠ 0 → p.io ≠ .returned))

/-- The owner's thread starts an operation, or posts a closure, only while the io
thread has not returned. -/
def StartsBeforeReturn (p : SessionProcess) (e : Event) : Prop :=
  e = .leave → p.stopped = false → p.io ≠ .returned

theorem LoopAlive.of_eq (h : LoopAlive p) (hio : p'.io = p.io) (hstopped : p'.stopped = p.stopped)
    (hout : p'.outstanding = p.outstanding) : LoopAlive p' := by
  simpa only [LoopAlive, hio, hstopped, hout] using h

theorem loopAlive_step {e : Event} (he : p.step lib e = some p') (h : LoopAlive p)
    (hG : StartsBeforeReturn p e) : LoopAlive p' := by
  cases step_moves he with
  | init =>
    simp only [init]
    split_ifs
    · exact h
    · exact h.of_eq rfl rfl rfl
  | destory | destroy => exact h.of_eq rfl rfl (by simp [outstanding, destory])
  | disconnect =>
    simp only [disconnect]
    split_ifs <;> exact h.of_eq rfl rfl rfl
  | leave hws => exact fun hs _ => hG rfl hs
  | stop =>
    intro hs
    cases hs
  | poll hio =>
    intro hs hout
    have hs' : p.stopped = false := hs
    have hout' : p.outstanding ≠ 0 := hout
    simp [poll, hs', hout']
  | expire => exact h.of_eq rfl rfl (by simp [outstanding])
  | handler hrun hq =>
    intro _ _
    rcases handler_io hq with hio | ⟨fault, hio⟩
    · simp [handled, hio, hrun]
    · simp [handled, hio]

theorem not_loopAlive_step {e : Event} (he : p.step lib e = some p')
    (hG : ¬ StartsBeforeReturn p e) : ¬ LoopAlive p' := by
  simp only [StartsBeforeReturn, not_forall, not_not] at hG
  obtain ⟨rfl, hs, hr⟩ := hG
  cases step_moves he with
  | leave hws =>
    intro h
    refine h hs ?_ hr
    rw [leave_outstanding hws]
    omega
  | handler hrun hq => cases hq

theorem loopAlive_fresh (hp : Fresh p) : LoopAlive p := by
  obtain ⟨host, port, rfl⟩ := hp
  intro _ _ h
  cases h

/-- Nothing outstanding is abandoned by the io thread, exactly in the runs in which
`Init` and `Destory` start nothing after it has returned. -/
theorem loopAlive_run (hp : Fresh p) (es : List Event) :
    (∀ p', (system lib).Visits p es p' → LoopAlive p') ↔
      ∀ a e b, (system lib).Takes p es a e b → StartsBeforeReturn a e := by
  apply EventSystem.visits_iff_takes (I := fun _ => True) (Q := fun _ => True)
  · intro a e b he _ _ _ hP hG
    exact ⟨trivial, loopAlive_step he hP hG⟩
  · intro a e b he _ _ _ _ hG
    exact not_loopAlive_step he hG
  · exact fun _ _ => trivial
  · trivial
  · exact loopAlive_fresh hp

theorem loopAlive_run_opening :
    (∀ p', (system JanusSession.exampleLib).Visits (create "127.0.0.1" 8188) (opening "a") p' →
      LoopAlive p') ∧
    ∀ a e b, (system JanusSession.exampleLib).Takes (create "127.0.0.1" 8188) (opening "a") a e b →
      StartsBeforeReturn a e := by
  have hall : ∀ p' ∈ (system JanusSession.exampleLib).visited (create "127.0.0.1" 8188)
      (opening "a"), LoopAlive p' := by decide
  have hvisits := EventSystem.forall_visits.mpr hall
  exact ⟨hvisits, (loopAlive_run ⟨_, _, rfl⟩ (opening "a")).mp hvisits⟩

/-- The io thread is faster than `Init()`: it finds nothing to do and is gone when the
name is to be resolved. -/
theorem io_thread_before_init : ∃ p,
    (system JanusSession.exampleLib).exec (create "127.0.0.1" 8188) [.poll, .init, .leave] =
      some p ∧
    p.io = .returned ∧ p.ws.resolves = 1 ∧ p.stopped = false ∧ ¬ LoopAlive p :=
  ⟨_, rfl, rfl, rfl, rfl, fun h => h rfl (by decide) rfl⟩

end WebrtcNativeDemo.SessionProcess
