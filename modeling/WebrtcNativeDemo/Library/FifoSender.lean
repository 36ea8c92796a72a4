import Mathlib.Data.List.Basic
import Mathlib.Data.List.Infix
import Mathlib.Data.List.Nodup
import Mathlib.Logic.Relation

/-!
# A first-in first-out sender

Items are accepted, moved one by one into a queue, and written one at a time from
its front; a write that succeeds removes the front, a write that fails leaves it
and ends all writing. The accepted list and two positions in it say everything:
what has been sent, what is queued and what still waits to be queued are the
three parts the positions cut it into.
-/

universe u

structure FifoSender (α : Type u) where
  accepted : List α
  queued : ℕ
  acked : ℕ
  failed : Bool
  acked_le : acked ≤ queued
  queued_le : queued ≤ accepted.length
  failed_lt : failed = true → acked < queued

namespace FifoSender
variable {α : Type u}

def empty : FifoSender α := ⟨[], 0, 0, false, le_rfl, le_rfl, by simp⟩

def popped (s : FifoSender α) : List α := s.accepted.take s.acked

def queue (s : FifoSender α) : List α := (s.accepted.take s.queued).drop s.acked

def pending (s : FifoSender α) : List α := s.accepted.drop s.queued

/-- The items given to the writer so far: the sent ones and the front of the queue. -/
def handed (s : FifoSender α) : List α := s.popped ++ s.queue.take 1

def flight (s : FifoSender α) : Option α := if s.failed then none else s.queue.head?

theorem popped_append_queue (s : FifoSender α) :
    s.popped ++ s.queue = s.accepted.take s.queued := by
  have h : s.popped = (s.accepted.take s.queued).take s.acked := by
    rw [popped, List.take_take, min_eq_left s.acked_le]
  rw [h, queue, List.take_append_drop]

theorem conserved (s : FifoSender α) : s.popped ++ s.queue ++ s.pending = s.accepted := by
  rw [popped_append_queue, pending, List.take_append_drop]

theorem handed_prefix (s : FifoSender α) : s.handed <+: s.accepted := by
  have h : s.handed <+: s.popped ++ s.queue :=
    (List.prefix_append_right_inj _).mpr (List.take_prefix _ _)
  rw [← s.conserved]
  exact h.trans (List.prefix_append _ _)

theorem handed_nodup {s : FifoSender α} (h : s.accepted.Nodup) : s.handed.Nodup :=
  h.sublist s.handed_prefix.sublist

theorem length_queue (s : FifoSender α) : s.queue.length = s.queued - s.acked := by
  have h := s.queued_le
  simp [queue, h]

theorem queue_ne_nil_of_failed {s : FifoSender α} (h : s.failed = true) : s.queue ≠ [] := by
  have hlt := s.failed_lt h
  have hlen := s.length_queue
  intro h0
  rw [h0, List.length_nil] at hlen
  omega

theorem flight_eq_none {s : FifoSender α} : s.flight = none ↔ s.failed = true ∨ s.queue = [] := by
  by_cases h : s.failed = true
  · simp [flight, h]
  · simp [flight, h]

theorem flight_eq_some {s : FifoSender α} {a : α} (h : s.flight = some a) :
    s.failed = false ∧ ∃ rest, s.queue = a :: rest := by
  by_cases hf : s.failed = true
  · simp [flight, hf] at h
  · simp only [flight, hf] at h
    refine ⟨by simpa using hf, ?_⟩
    rcases hq : s.queue with _ | ⟨b, rest⟩
    · simp [hq] at h
    · obtain rfl : b = a := by simpa [hq] using h
      exact ⟨rest, rfl⟩

/-! ### Steps -/

def post (s : FifoSender α) (a : α) : FifoSender α where
  accepted := s.accepted ++ [a]
  queued := s.queued
  acked := s.acked
  failed := s.failed
  acked_le := s.acked_le
  queued_le := by
    have h := s.queued_le
    rw [List.length_append]
    omega
  failed_lt := s.failed_lt

def enqueue (s : FifoSender α) (h : s.pending ≠ []) : FifoSender α where
  accepted := s.accepted
  queued := s.queued + 1
  acked := s.acked
  failed := s.failed
  acked_le := s.acked_le.trans (Nat.le_succ _)
  queued_le := by
    have hlen : s.pending.length ≠ 0 := by simpa using h
    rw [pending, List.length_drop] at hlen
    omega
  failed_lt := fun hf => (s.failed_lt hf).trans (Nat.lt_succ_self _)

theorem acked_lt_of_queue {s : FifoSender α} (h : s.queue ≠ []) : s.acked < s.queued := by
  have hlen : s.queue.length ≠ 0 := by simpa using h
  rw [length_queue] at hlen
  omega

def ack (s : FifoSender α) (h : s.queue ≠ []) (hf : s.failed = false) : FifoSender α where
  accepted := s.accepted
  queued := s.queued
  acked := s.acked + 1
  failed := s.failed
  acked_le := acked_lt_of_queue h
  queued_le := s.queued_le
  failed_lt := fun h' => by simp [hf] at h'

def nack (s : FifoSender α) (h : s.queue ≠ []) : FifoSender α where
  accepted := s.accepted
  queued := s.queued
  acked := s.acked
  failed := true
  acked_le := s.acked_le
  queued_le := s.queued_le
  failed_lt := fun _ => acked_lt_of_queue h

inductive Step : FifoSender α → FifoSender α → Prop
  | post (s : FifoSender α) (a : α) : Step s (s.post a)
  | enqueue (s : FifoSender α) (h : s.pending ≠ []) : Step s (s.enqueue h)
  | ack (s : FifoSender α) (h : s.queue ≠ []) (hf : s.failed = false) : Step s (s.ack h hf)
  | nack (s : FifoSender α) (h : s.queue ≠ []) : Step s (s.nack h)

abbrev Steps : FifoSender α → FifoSender α → Prop := Relation.ReflTransGen Step

@[simp] theorem accepted_empty : (empty : FifoSender α).accepted = [] := rfl
@[simp] theorem popped_empty : (empty : FifoSender α).popped = [] := rfl
@[simp] theorem queue_empty : (empty : FifoSender α).queue = [] := rfl
@[simp] theorem pending_empty : (empty : FifoSender α).pending = [] := rfl
@[simp] theorem handed_empty : (empty : FifoSender α).handed = [] := rfl
@[simp] theorem flight_empty : (empty : FifoSender α).flight = none := rfl
@[simp] theorem failed_empty : (empty : FifoSender α).failed = false := rfl

@[simp] theorem accepted_post (s : FifoSender α) (a : α) :
    (s.post a).accepted = s.accepted ++ [a] := rfl

@[simp] theorem failed_post (s : FifoSender α) (a : α) : (s.post a).failed = s.failed := rfl

@[simp] theorem popped_post (s : FifoSender α) (a : α) : (s.post a).popped = s.popped :=
  List.take_append_of_le_length (s.acked_le.trans s.queued_le)

@[simp] theorem queue_post (s : FifoSender α) (a : α) : (s.post a).queue = s.queue := by
  have h : (s.accepted ++ [a]).take s.queued = s.accepted.take s.queued :=
    List.take_append_of_le_length s.queued_le
  exact congrArg (List.drop s.acked) h

@[simp] theorem pending_post (s : FifoSender α) (a : α) :
    (s.post a).pending = s.pending ++ [a] :=
  List.drop_append_of_le_length s.queued_le

@[simp] theorem accepted_enqueue (s : FifoSender α) (h : s.pending ≠ []) :
    (s.enqueue h).accepted = s.accepted := rfl

@[simp] theorem failed_enqueue (s : FifoSender α) (h : s.pending ≠ []) :
    (s.enqueue h).failed = s.failed := rfl

@[simp] theorem popped_enqueue (s : FifoSender α) (h : s.pending ≠ []) :
    (s.enqueue h).popped = s.popped := rfl

theorem enqueue_eq {s : FifoSender α} {a : α} {rest : List α} (hp : s.pending = a :: rest)
    (h : s.pending ≠ []) : (s.enqueue h).queue = s.queue ++ [a] ∧ (s.enqueue h).pending = rest := by
  have htake : s.accepted.take (s.queued + 1) = s.accepted.take s.queued ++ [a] := by
    conv_lhs => rw [← List.take_append_drop s.queued s.accepted]
    have hlen : (s.accepted.take s.queued).length = s.queued := by simp [s.queued_le]
    rw [← pending, hp, List.take_append, hlen, List.take_of_length_le (by omega)]
    simp
  constructor
  · have hle : s.acked ≤ (s.accepted.take s.queued).length := by
      rw [List.length_take]
      exact le_min s.acked_le (s.acked_le.trans s.queued_le)
    change (s.accepted.take (s.queued + 1)).drop s.acked = _
    rw [htake, List.drop_append_of_le_length hle]
    rfl
  · change s.accepted.drop (s.queued + 1) = rest
    rw [← List.drop_drop, ← pending, hp]
    rfl

@[simp] theorem accepted_ack (s : FifoSender α) (h : s.queue ≠ []) (hf : s.failed = false) :
    (s.ack h hf).accepted = s.accepted := rfl

@[simp] theorem failed_ack (s : FifoSender α) (h : s.queue ≠ []) (hf : s.failed = false) :
    (s.ack h hf).failed = s.failed := rfl

@[simp] theorem pending_ack (s : FifoSender α) (h : s.queue ≠ []) (hf : s.failed = false) :
    (s.ack h hf).pending = s.pending := rfl

theorem ack_eq {s : FifoSender α} {a : α} {rest : List α} (hq : s.queue = a :: rest)
    (h : s.queue ≠ []) (hf : s.failed = false) :
    (s.ack h hf).popped = s.popped ++ [a] ∧ (s.ack h hf).queue = rest := by
  have hrest : (s.ack h hf).queue = rest := by
    change (s.accepted.take s.queued).drop (s.acked + 1) = rest
    rw [← List.drop_drop, ← queue, hq]
    rfl
  refine ⟨?_, hrest⟩
  have hcons : (s.ack h hf).popped ++ rest = s.popped ++ [a] ++ rest := by
    rw [← hrest, popped_append_queue, List.append_assoc, hrest, List.singleton_append, ← hq,
      popped_append_queue]
    rfl
  exact List.append_cancel_right hcons

@[simp] theorem accepted_nack (s : FifoSender α) (h : s.queue ≠ []) :
    (s.nack h).accepted = s.accepted := rfl

@[simp] theorem failed_nack (s : FifoSender α) (h : s.queue ≠ []) : (s.nack h).failed = true := rfl

@[simp] theorem popped_nack (s : FifoSender α) (h : s.queue ≠ []) :
    (s.nack h).popped = s.popped := rfl

@[simp] theorem queue_nack (s : FifoSender α) (h : s.queue ≠ []) :
    (s.nack h).queue = s.queue := rfl

@[simp] theorem pending_nack (s : FifoSender α) (h : s.queue ≠ []) :
    (s.nack h).pending = s.pending := rfl

end FifoSender
