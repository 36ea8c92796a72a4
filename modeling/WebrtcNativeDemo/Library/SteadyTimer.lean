import Mathlib.Data.Nat.Notation
import Mathlib.Tactic.SplitIfs

/-!
# Waits on a timer

A timer with the waits on it that have not yet run their handler. A wait is pending
until the expiry time is reached or the wait is cancelled; from then on its handler
is queued, without an error in the first case and with one in the second.
-/

structure SteadyTimer where
  seconds : ℕ := 0
  pending : ℕ := 0
  expired : ℕ := 0
  aborted : ℕ := 0
deriving DecidableEq, Repr

namespace SteadyTimer

def waits (t : SteadyTimer) : ℕ := t.pending + t.expired + t.aborted

/-- The waits whose handler will run, or still may run, without an error. -/
def live (t : SteadyTimer) : ℕ := t.pending + t.expired

def asyncWait (t : SteadyTimer) : SteadyTimer := { t with pending := t.pending + 1 }

def cancel (t : SteadyTimer) : SteadyTimer :=
  { t with pending := 0, aborted := t.aborted + t.pending }

/-- A new expiry time cancels the waits for the old one. -/
def expiresFromNow (t : SteadyTimer) (seconds : ℕ) : SteadyTimer := { t.cancel with seconds }

def rearm (t : SteadyTimer) (seconds : ℕ) : SteadyTimer := (t.expiresFromNow seconds).asyncWait

def expire (t : SteadyTimer) : SteadyTimer :=
  { t with pending := 0, expired := t.expired + t.pending }

/-- The handler of a wait is taken from the queue, one with an error if `error`. -/
def take (t : SteadyTimer) (error : Bool) : Option SteadyTimer :=
  if error then
    if t.aborted = 0 then none else some { t with aborted := t.aborted - 1 }
  else if t.expired = 0 then none else some { t with expired := t.expired - 1 }

/-- What a loop of waits does to its timer, as long as it cancels none without a new one. -/
inductive Loops (t : SteadyTimer) : SteadyTimer → Prop
  | kept : Loops t t
  | expired : Loops t t.expire
  | aborted {t' : SteadyTimer} (h : t.take true = some t') : Loops t t'
  | rearmed (u : SteadyTimer) (seconds : ℕ) : Loops t (u.rearm seconds)

@[simp] theorem cancel_waits (t : SteadyTimer) : t.cancel.waits = t.waits := by
  simp only [cancel, waits]
  omega

@[simp] theorem expire_waits (t : SteadyTimer) : t.expire.waits = t.waits := by
  simp only [expire, waits]
  omega

theorem cancel_live (t : SteadyTimer) : t.cancel.live = t.expired := Nat.zero_add _

theorem cancel_idle {t : SteadyTimer} (h : t.live = 0) : t.cancel.live = 0 := by
  rw [cancel_live]
  simp only [live] at h
  omega

theorem expire_live (t : SteadyTimer) : t.expire.live = t.live := by
  simp only [expire, live]
  omega

@[simp] theorem rearm_pending (t : SteadyTimer) (seconds : ℕ) : (t.rearm seconds).pending = 1 := rfl

theorem rearm_live_pos (t : SteadyTimer) (seconds : ℕ) : 0 < (t.rearm seconds).live := by
  simp only [live, rearm_pending]
  omega

theorem take_error {t t' : SteadyTimer} (h : t.take true = some t') :
    t'.pending = t.pending ∧ t'.live = t.live := by
  simp only [take, if_true] at h
  split_ifs at h
  obtain rfl := Option.some.inj h
  exact ⟨rfl, rfl⟩

theorem take_expired {t t' : SteadyTimer} (h : t.take false = some t') : 0 < t.live := by
  simp only [take, Bool.false_eq_true, if_false] at h
  split_ifs at h with hexp
  simp only [live]
  omega

theorem take_false_isSome {t : SteadyTimer} (h : 0 < t.expired) : ∃ t', t.take false = some t' := by
  have hne : t.expired ≠ 0 := by omega
  simp [take, hne]

theorem take_live {t t' : SteadyTimer} {error : Bool} (h : t.take error = some t')
    (hl : t.live = 0) : error = true ∧ t'.live = 0 := by
  have hexp : t.expired = 0 := by
    simp only [live] at hl
    omega
  cases error with
  | true =>
    by_cases ha : t.aborted = 0
    · simp [take, ha] at h
    · simp only [take, if_true, if_neg ha, Option.some.injEq] at h
      subst h
      exact ⟨rfl, hl⟩
  | false => simp [take, hexp] at h

theorem Loops.pending_le {t t' : SteadyTimer} (h : t.Loops t') (hp : t.pending ≤ 1) :
    t'.pending ≤ 1 := by
  cases h with
  | kept => exact hp
  | expired => exact Nat.zero_le 1
  | aborted h =>
    rw [(take_error h).1]
    exact hp
  | rearmed u seconds => exact Nat.le_refl 1

theorem Loops.live_pos {t t' : SteadyTimer} (h : t.Loops t') (hl : 0 < t.live) : 0 < t'.live := by
  cases h with
  | kept => exact hl
  | expired =>
    rw [expire_live]
    exact hl
  | aborted h =>
    rw [(take_error h).2]
    exact hl
  | rearmed u seconds => exact rearm_live_pos u seconds

end SteadyTimer
