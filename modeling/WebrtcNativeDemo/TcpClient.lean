import Mathlib.Data.List.Range
import WebrtcNativeDemo.Library.EventSystem

/-!
# The client of the echo server

`Client` of `05_rtc_socket/tcp/client.cc`. Connected, and after every packet it gets, it
posts a task that sends the next packet half a second later. The task holds the raw
`this`, and `OnClose` deletes the client without removing the tasks it has posted.
-/

namespace WebrtcNativeDemo

structure Client where
  count : Int64 := 0
  -- cleared by `delete this`
  alive : Bool := true
  -- the delayed tasks that have been posted and have not run
  tasks : ℕ := 0
  -- the packets passed to `socket_->Send`, and those that `OnMsg` got
  sent : List String := []
  received : List String := []
  -- the tasks that have run on the deleted client
  dangling : ℕ := 0
  log : List String := []
deriving DecidableEq, Repr

namespace Client

def sendMsg (c : Client) : Client := { c with tasks := c.tasks + 1 }

def onMsg (c : Client) (data remoteAddr : String) : Client :=
  { c with
    received := c.received ++ [data]
    log := c.log ++ ["receive msg: " ++ data ++ " from " ++ remoteAddr] }.sendMsg

def onClose (c : Client) (code : Int32) : Client :=
  { c with alive := false, log := c.log ++ ["==== close:" ++ toString code] }

def onConnect (c : Client) (localAddr remoteAddr : String) : Client :=
  { c with
    log := c.log ++ [">>>>> connect success", "local_addr:" ++ localAddr,
      "remote_addr:" ++ remoteAddr] }.sendMsg

/-- The body of the task, and the packet it passes to `Send`. -/
def sendNext (c : Client) : Client × String :=
  let count := c.count + 1
  let msg := "hello " ++ toString count
  ({ c with count, sent := c.sent ++ [msg] }, msg)

/-- A posted task is run. What it does on a deleted client is undefined, and so is the
increment of the largest count. -/
def runTask (c : Client) : Option (Client × Option String) :=
  if c.tasks = 0 then none
  else
    let c := { c with tasks := c.tasks - 1 }
    if c.alive = false then some ({ c with dangling := c.dangling + 1 }, none)
    else if c.count = Int64.maxValue then none
    else some (c.sendNext.1, some c.sendNext.2)

inductive Event
  | connect (localAddr remoteAddr : String)
  | packet (data remoteAddr : String)
  | task
  | close (code : Int32)

/-- The signals of the socket reach a client that has not been deleted. -/
def step (c : Client) : Event → Option Client
  | .connect localAddr remoteAddr =>
    if c.alive then some (c.onConnect localAddr remoteAddr) else none
  | .packet data remoteAddr => if c.alive then some (c.onMsg data remoteAddr) else none
  | .task => c.runTask.map Prod.fst
  | .close code => if c.alive then some (c.onClose code) else none

def system : EventSystem Client Event := ⟨fun c => c = {}, step⟩

variable {c c' : Client}

inductive RunsTask (c : Client) : Client → Option String → Prop
  | deleted (ht : 0 < c.tasks) (ha : c.alive = false) :
      RunsTask c { c with tasks := c.tasks - 1, dangling := c.dangling + 1 } none
  | sends (ht : 0 < c.tasks) (ha : c.alive = true) (hc : c.count ≠ Int64.maxValue) :
      RunsTask c { c with
        tasks := c.tasks - 1
        count := c.count + 1
        sent := c.sent ++ ["hello " ++ toString (c.count + 1)] }
        (some ("hello " ++ toString (c.count + 1)))

theorem runTask_cases {msg : Option String} (h : c.runTask = some (c', msg)) :
    RunsTask c c' msg := by
  simp only [runTask] at h
  split_ifs at h with ht ha hc
  · obtain ⟨rfl, rfl⟩ := Prod.mk.inj (Option.some.inj h)
    exact .deleted (Nat.pos_of_ne_zero ht) ha
  · obtain ⟨rfl, rfl⟩ := Prod.mk.inj (Option.some.inj h)
    exact .sends (Nat.pos_of_ne_zero ht) (by simpa using ha) hc

theorem step_task (h : c.step .task = some c') : ∃ msg, RunsTask c c' msg := by
  obtain ⟨⟨c₁, msg⟩, hrun, rfl⟩ := Option.map_eq_some_iff.mp h
  exact ⟨msg, runTask_cases hrun⟩

theorem step_connect {localAddr remoteAddr : String}
    (he : c.step (.connect localAddr remoteAddr) = some c') :
    c' = c.onConnect localAddr remoteAddr := by
  simp only [step] at he
  split_ifs at he
  exact (Option.some.inj he).symm

theorem step_packet {data remoteAddr : String}
    (he : c.step (.packet data remoteAddr) = some c') : c' = c.onMsg data remoteAddr := by
  simp only [step] at he
  split_ifs at he
  exact (Option.some.inj he).symm

theorem step_close {code : Int32} (he : c.step (.close code) = some c') :
    c' = c.onClose code := by
  simp only [step] at he
  split_ifs at he
  exact (Option.some.inj he).symm

theorem reachable_step {e : Event} (h : system.Reachable c) (he : c.step e = some c') :
    system.Reachable c' := h.step (e := e) he

/-! ### The numbers of the packets -/

def hellos (n : ℕ) : List String := (List.range n).map fun k => "hello " ++ toString (k + 1)

/-- The n-th packet passed to `Send` is `hello n`. -/
structure Numbered (c : Client) : Prop where
  count : c.count.toInt = c.sent.length
  sent : c.sent = hellos c.sent.length

theorem toInt_add_one {n : Int64} {k : ℕ} (h : n.toInt = k) (hn : n ≠ Int64.maxValue) :
    (n + 1).toInt = (k + 1 : ℕ) := by
  have hlt := Int64.toInt_lt n
  have hle := Int64.le_toInt n
  have hmax : n.toInt ≠ 2 ^ 63 - 1 := by
    intro hmax
    apply hn
    apply Int64.toInt.inj
    rw [hmax]
    rfl
  have hone : (1 : Int64).toInt = 1 := rfl
  rw [Int64.toInt_add, hone, Int.bmod_eq_of_le] <;> omega

theorem RunsTask.numbered {msg : Option String} (h : RunsTask c c' msg) (hc : Numbered c) :
    Numbered c' := by
  cases h with
  | deleted ht ha => exact ⟨hc.count, hc.sent⟩
  | sends ht ha hmax =>
    have hcount := toInt_add_one hc.count hmax
    have htext : toString (c.count + 1) = toString (c.sent.length + 1) := by
      show toString (c.count + 1).toInt = _
      rw [hcount]
      rfl
    constructor
    · simpa using hcount
    · rw [List.length_append, List.length_singleton, hellos, List.range_succ, List.map_append,
        htext]
      exact congrArg (· ++ _) hc.sent

theorem numbered_step {e : Event} (he : c.step e = some c') (h : Numbered c) : Numbered c' := by
  cases e with
  | task =>
    obtain ⟨msg, hrun⟩ := step_task he
    exact hrun.numbered h
  | connect localAddr remoteAddr | packet data remoteAddr | close code =>
    simp only [step] at he
    split_ifs at he
    obtain rfl := Option.some.inj he
    exact ⟨h.count, h.sent⟩

theorem numbered_reachable (h : system.Reachable c) : Numbered c := by
  apply h.invariant (I := Numbered)
  · intro c hc
    obtain rfl : c = {} := hc
    exact ⟨rfl, rfl⟩
  · exact fun _ _ _ he hc => numbered_step he hc

/-! ### After the close -/

theorem deleted_idle {e : Event} (ha : c.alive = false) (ht : c.tasks = 0) : c.step e = none := by
  cases e with
  | task => simp [step, runTask, ht]
  | connect localAddr remoteAddr | packet data remoteAddr | close code => simp [step, ha]

theorem deleted_step {e : Event} (he : c.step e = some c') (ha : c.alive = false) :
    c'.alive = false := by
  cases e with
  | task =>
    obtain ⟨msg, hrun⟩ := step_task he
    cases hrun with
    | deleted => exact ha
    | sends ht halive =>
      rw [ha] at halive
      cases halive
  | connect localAddr remoteAddr | packet data remoteAddr | close code => simp [step, ha] at he

theorem tasks_after_close {code : Int32} (he : c.step (.close code) = some c') :
    (∀ es a b, ¬ system.Takes c' es a .task b) ↔ c.tasks = 0 := by
  obtain rfl := step_close he
  constructor
  · intro h
    by_contra ht
    have hrun : (c.onClose code).step .task = some { c.onClose code with
        tasks := c.tasks - 1, dangling := c.dangling + 1 } := by
      simp [step, runTask, onClose, ht]
    exact h [.task] _ _ (EventSystem.takes_cons.mpr (Or.inl ⟨rfl, rfl, hrun⟩))
  · intro ht es a b hab
    have hnone (e : Event) : system.step (c.onClose code) e = none := deleted_idle rfl ht
    have ha : a = c.onClose code := by
      apply EventSystem.visits_invariant (I := fun a => a = c.onClose code) rfl _ a
        hab.visits_left
      rintro a e b - hab rfl
      rw [hnone] at hab
      cases hab
    have hstep := hab.step
    rw [ha, hnone] at hstep
    cases hstep

/-- However a run goes on after the close, its tasks run before the client is deleted,
exactly when none was posted and not yet run at the close. -/
theorem close_ends_sending {es : List Event} {code : Int32} (hc : system.exec {} es = some c)
    (he : c.step (.close code) = some c') :
    (∀ fs a b, system.Takes {} (es ++ .close code :: fs) a .task b → a.alive = true) ↔
      c.tasks = 0 := by
  have hclose := step_close he
  have halive : c.alive = true := by
    by_contra hno
    simp [step, hno] at he
  rw [← tasks_after_close he]
  constructor
  · intro h fs a b hab
    have ha : a.alive = true := h fs a b (EventSystem.takes_append.mpr
      (Or.inr ⟨c, hc, EventSystem.takes_cons.mpr (Or.inr ⟨c', he, hab⟩)⟩))
    have hdeleted : a.alive = false := by
      apply EventSystem.visits_invariant (I := fun a : Client => a.alive = false)
        (by rw [hclose]; rfl) (fun _ _ _ _ => deleted_step) a hab.visits_left
    rw [ha] at hdeleted
    cases hdeleted
  · intro h fs a b hab
    rcases EventSystem.takes_append.mp hab with hab | ⟨u, hu, hab⟩
    · -- before the close, or the client would not have been there to be closed
      obtain ⟨pre, post, -, -, hpost⟩ := hab.split hc
      by_contra ha
      have hstep : a.step .task = some b := hab.step
      have hb : b.alive = false := deleted_step hstep (by simpa using ha)
      have hdeleted := EventSystem.exec_invariant (I := fun a : Client => a.alive = false)
        (fun _ _ _ => deleted_step) hpost hb
      rw [halive] at hdeleted
      cases hdeleted
    · obtain rfl := Option.some.inj (hc.symm.trans hu)
      rcases EventSystem.takes_cons.mp hab with ⟨-, htask, -⟩ | ⟨v, hv, hab⟩
      · cases htask
      · obtain rfl := Option.some.inj (he.symm.trans hv)
        exact absurd hab (h fs a b)

theorem close_ends_sending_waiting : ∃ c,
    system.exec {} [.connect "127.0.0.1:40000" "127.0.0.1:8888", .task] = some c ∧ c.tasks = 0 ∧
    ∀ fs a b, system.Takes {} ([.connect "127.0.0.1:40000" "127.0.0.1:8888", .task] ++
      .close 104 :: fs) a .task b → a.alive = true := by
  obtain ⟨c, c', hc, he, ht⟩ : ∃ c c',
      system.exec {} [.connect "127.0.0.1:40000" "127.0.0.1:8888", .task] = some c ∧
      c.step (.close 104) = some c' ∧ c.tasks = 0 := ⟨_, _, rfl, rfl, rfl⟩
  exact ⟨c, hc, ht, (close_ends_sending hc he).mpr ht⟩

/-- The connection is closed within the half second after it was made. -/
theorem task_after_close : ∃ a b,
    system.exec {} [.connect "127.0.0.1:40000" "127.0.0.1:8888", .close 104] = some a ∧
    a.alive = false ∧ a.step .task = some b ∧ b.dangling = 1 :=
  ⟨_, _, rfl, rfl, rfl, rfl⟩

end Client
end WebrtcNativeDemo
