import Mathlib.Logic.Function.Basic
import WebrtcNativeDemo.Library.EventSystem
import WebrtcNativeDemo.Library.Fallible
import WebrtcNativeDemo.Library.SafeWalk

/-!
# Signals and slots

`_signal_base`, `has_slots` and `signal_with_thread_policy` of `sigslot.h` under the
policy `single_threaded`. A signal keeps a list of its connections, and an object with
slots a set of the signals that are connected to it; both destructors disconnect. While
a signal fires, the slots that it calls may do anything with any signal, the firing one
included.

Objects are numbered in the order of their construction, and so are the nodes of the
connection lists, which never change their places. To touch an object that is destroyed
is a fault, with which the run ends.
-/

namespace WebrtcNativeDemo

namespace Sigslot

/-- `_opaque_connection` in its list node. `M` is the type of the methods. -/
structure Connection (M : Type) where
  node : ℕ
  dest : ℕ
  method : M

/-- `none` is the iterator `m_connected_slots.end()`. -/
structure SignalBase (M : Type) where
  connectedSlots : List (Connection M) := []
  currentIterator : Option ℕ := none

structure HasSlots where
  senders : List ℕ := []

/-- A call of `emit` that has not returned, with the nodes it has called. `begun` is the
number of nodes that there were before it, and `nested` what the calls of `emit` on the
same signal have called that it has waited for. -/
structure Emission where
  signal : ℕ
  begun : ℕ
  called : List ℕ := []
  nested : List ℕ := []

inductive Fault
  | deadSignal (s : ℕ)
  | deadSlots (d : ℕ)
  | badIterator (s : ℕ)
deriving DecidableEq, Repr

/-- A call of a slot. -/
structure Emitted (M : Type) where
  signal : ℕ
  dest : ℕ
  method : M
deriving DecidableEq, Repr

variable {M : Type}

namespace SignalBase

def nodes (sig : SignalBase M) : List ℕ := sig.connectedSlots.map Connection.node

def dests (sig : SignalBase M) : List ℕ := sig.connectedSlots.map Connection.dest

def push (sig : SignalBase M) (c : Connection M) : SignalBase M :=
  { sig with connectedSlots := sig.connectedSlots ++ [c] }

/-- `erase`, with the current iterator advanced where it would be invalid. -/
def erase (sig : SignalBase M) (n : ℕ) : SignalBase M where
  connectedSlots := sig.connectedSlots.filter (·.node ≠ n)
  currentIterator := SafeWalk.slide sig.nodes sig.currentIterator n

/-- `do_slot_disconnect`. -/
def slotDisconnect (sig : SignalBase M) (pslot : ℕ) : SignalBase M :=
  sig.connectedSlots.foldl (fun sig it => if it.dest = pslot then sig.erase it.node else sig) sig

end SignalBase
end Sigslot

open Sigslot in
structure Sigslot (M : Type) where
  signals : ℕ → Option (SignalBase M) := fun _ => none
  slots : ℕ → Option HasSlots := fun _ => none
  builtSignals : ℕ := 0
  builtSlots : ℕ := 0
  allocated : ℕ := 0
  firing : List Emission := []
  hist : List (Emitted M) := []
  fault : Option Fault := none

namespace Sigslot

variable {M : Type} (p : Sigslot M)

def aliveSignal (s : ℕ) : Except Fault (SignalBase M) :=
  match p.signals s with
  | some sig => .ok sig
  | none => .error (.deadSignal s)

def aliveSlots (d : ℕ) : Except Fault HasSlots :=
  match p.slots d with
  | some x => .ok x
  | none => .error (.deadSlots d)

def setSignal (s : ℕ) (sig : Option (SignalBase M)) : Sigslot M :=
  { p with signals := Function.update p.signals s sig }

def setSlots (d : ℕ) (x : Option HasSlots) : Sigslot M :=
  { p with slots := Function.update p.slots d x }

/-! ### What a signal and a slot ask of each other -/

def signalConnect (d sender : ℕ) : Except Fault (Sigslot M) := do
  let x ← p.aliveSlots d
  return p.setSlots d (some { x with senders := x.senders.insert sender })

def signalDisconnect (d sender : ℕ) : Except Fault (Sigslot M) := do
  let x ← p.aliveSlots d
  return p.setSlots d (some { x with senders := x.senders.filter (· ≠ sender) })

def slotDisconnect (s pslot : ℕ) : Except Fault (Sigslot M) := do
  let sig ← p.aliveSignal s
  return p.setSignal s (some (sig.slotDisconnect pslot))

/-- `m_connected_slots.push_back`. -/
def pushBack (s d : ℕ) (m : M) : Except Fault (Sigslot M) := do
  let sig ← p.aliveSignal s
  return { p with allocated := p.allocated + 1 }.setSignal s (some (sig.push ⟨p.allocated, d, m⟩))

/-- `do_slot_duplicate`. What is pushed has the new target and is passed over. -/
def slotDuplicate (s oldtarget newtarget : ℕ) : Except Fault (Sigslot M) := do
  let sig ← p.aliveSignal s
  (sig.connectedSlots.filter (·.dest = oldtarget)).foldlM
    (fun p it => p.pushBack s newtarget it.method) p

/-! ### The calls -/

def newSignal : Sigslot M :=
  { p with builtSignals := p.builtSignals + 1 }.setSignal p.builtSignals (some {})

def newSlots : Sigslot M :=
  { p with builtSlots := p.builtSlots + 1 }.setSlots p.builtSlots (some {})

/-- The copy constructor of `_signal_base`. -/
def copySignal (s : ℕ) : Except Fault (Sigslot M) := do
  let sig ← p.aliveSignal s
  sig.connectedSlots.foldlM (fun q connection => do
    let q ← q.signalConnect connection.dest p.builtSignals
    q.pushBack p.builtSignals connection.dest connection.method) p.newSignal

/-- The copy constructor of `has_slots`. -/
def copySlots (d : ℕ) : Except Fault (Sigslot M) := do
  let x ← p.aliveSlots d
  x.senders.foldlM (fun q sender => do
    let q ← q.slotDuplicate sender d p.builtSlots
    q.signalConnect p.builtSlots sender) p.newSlots

def connect (s pclass : ℕ) (pmemfun : M) : Except Fault (Sigslot M) := do
  let p ← p.pushBack s pclass pmemfun
  p.signalConnect pclass s

/-- The first connection to `pclass` goes. -/
def disconnect (s pclass : ℕ) : Except Fault (Sigslot M) := do
  let sig ← p.aliveSignal s
  match sig.connectedSlots.find? (·.dest = pclass) with
  | none => return p
  | some it => (p.setSignal s (some (sig.erase it.node))).signalDisconnect pclass s

/-- `disconnect_all` of a signal. Each connection is popped before its slot is told, and
nothing looks at the list in between. -/
def disconnectAll (s : ℕ) : Except Fault (Sigslot M) := do
  let sig ← p.aliveSignal s
  let p ← sig.connectedSlots.foldlM (fun p it => p.signalDisconnect it.dest s) p
  return p.setSignal s (some {})

/-- `disconnect_all` of an object with slots. The senders are swapped out first. -/
def slotsDisconnectAll (d : ℕ) : Except Fault (Sigslot M) := do
  let x ← p.aliveSlots d
  x.senders.foldlM (fun p sender => p.slotDisconnect sender d) (p.setSlots d (some {}))

def destroySignal (s : ℕ) : Except Fault (Sigslot M) := do
  let p ← p.disconnectAll s
  return p.setSignal s none

def destroySlots (d : ℕ) : Except Fault (Sigslot M) := do
  let p ← p.slotsDisconnectAll d
  return p.setSlots d none

/-! ### Firing -/

/-- `emit` up to its loop. -/
def emit (s : ℕ) : Except Fault (Sigslot M) := do
  let sig ← p.aliveSignal s
  return { p with firing := ⟨s, p.allocated, [], []⟩ :: p.firing }.setSignal s
    (some { sig with currentIterator := sig.nodes.head? })

/-- An emission that was waiting learns what the one that has returned has called. -/
def Emission.absorb (e f : Emission) : Emission :=
  if f.signal = e.signal then { f with nested := f.nested ++ e.called ++ e.nested } else f

/-- The loop of the innermost `emit`, up to the next call of a slot or its end. -/
def turn : Except Fault (Sigslot M) :=
  match p.firing with
  | [] => .ok p
  | e :: rest => do
    let sig ← p.aliveSignal e.signal
    match sig.currentIterator with
    | none => return { p with firing := rest.map e.absorb }
    | some n =>
      match sig.connectedSlots.find? (·.node = n) with
      | none => .error (.badIterator e.signal)
      | some conn => do
        let p := p.setSignal e.signal
          (some { sig with currentIterator := SafeWalk.following sig.nodes n })
        let _ ← p.aliveSlots conn.dest
        return { p with
          firing := { e with called := e.called ++ [n] } :: rest
          hist := p.hist ++ [⟨e.signal, conn.dest, conn.method⟩] }

/-! ### Steps -/

/-- What a program does, or a slot that is being called, and the turns of the loop in
`emit` between those calls. -/
inductive Event (M : Type)
  | newSignal
  | newSlots
  | copySignal (s : ℕ)
  | copySlots (d : ℕ)
  | connect (s d : ℕ) (m : M)
  | disconnect (s d : ℕ)
  | disconnectAll (s : ℕ)
  | slotsDisconnectAll (d : ℕ)
  | destroySignal (s : ℕ)
  | destroySlots (d : ℕ)
  | emit (s : ℕ)
  | turn

/-- A program uses only objects that are there. -/
def enabled : Event M → Bool
  | .newSignal | .newSlots => true
  | .copySignal s | .disconnectAll s | .destroySignal s | .emit s => (p.signals s).isSome
  | .copySlots d | .slotsDisconnectAll d | .destroySlots d => (p.slots d).isSome
  | .connect s d _ | .disconnect s d => (p.signals s).isSome && (p.slots d).isSome
  | .turn => !p.firing.isEmpty

def apply : Event M → Except Fault (Sigslot M)
  | .newSignal => .ok p.newSignal
  | .newSlots => .ok p.newSlots
  | .copySignal s => p.copySignal s
  | .copySlots d => p.copySlots d
  | .connect s d m => p.connect s d m
  | .disconnect s d => p.disconnect s d
  | .disconnectAll s => p.disconnectAll s
  | .slotsDisconnectAll d => p.slotsDisconnectAll d
  | .destroySignal s => p.destroySignal s
  | .destroySlots d => p.destroySlots d
  | .emit s => p.emit s
  | .turn => p.turn

def step (e : Event M) : Option (Sigslot M) :=
  if p.fault = none ∧ p.enabled e = true then
    match p.apply e with
    | .ok q => some q
    | .error fault => some { p with fault := some fault }
  else none

def system : EventSystem (Sigslot M) (Event M) := ⟨fun p => p = {}, step⟩

/-! ### When the calls of the library fail -/

section Ends

open Fallible (Ends ends_pure)

theorem aliveSignal_ends (s : ℕ) : Ends (p.aliveSignal s) (fun sig => p.signals s = some sig)
    (fun fault => fault = .deadSignal s ∧ p.signals s = none) := by
  unfold aliveSignal
  cases hs : p.signals s <;> simp

theorem aliveSlots_ends (d : ℕ) : Ends (p.aliveSlots d) (fun x => p.slots d = some x)
    (fun fault => fault = .deadSlots d ∧ p.slots d = none) := by
  unfold aliveSlots
  cases hd : p.slots d <;> simp

theorem signalConnect_ends (d sender : ℕ) : Ends (p.signalConnect d sender)
    (fun q => ∃ x, p.slots d = some x ∧ q = p.setSlots d (some ⟨x.senders.insert sender⟩))
    (fun fault => fault = .deadSlots d ∧ p.slots d = none) :=
  (p.aliveSlots_ends d).bind fun x hx => ends_pure.mpr ⟨x, hx, rfl⟩

theorem signalDisconnect_ends (d sender : ℕ) : Ends (p.signalDisconnect d sender)
    (fun q => ∃ x, p.slots d = some x ∧ q = p.setSlots d (some ⟨x.senders.filter (· ≠ sender)⟩))
    (fun fault => fault = .deadSlots d ∧ p.slots d = none) :=
  (p.aliveSlots_ends d).bind fun x hx => ends_pure.mpr ⟨x, hx, rfl⟩

theorem slotDisconnect_ends (s pslot : ℕ) : Ends (p.slotDisconnect s pslot)
    (fun q => ∃ sig, p.signals s = some sig ∧ q = p.setSignal s (some (sig.slotDisconnect pslot)))
    (fun fault => fault = .deadSignal s ∧ p.signals s = none) :=
  (p.aliveSignal_ends s).bind fun sig hs => ends_pure.mpr ⟨sig, hs, rfl⟩

theorem pushBack_ends (s d : ℕ) (m : M) : Ends (p.pushBack s d m)
    (fun q => ∃ sig, p.signals s = some sig ∧ q = { p with allocated := p.allocated + 1 }.setSignal
      s (some (sig.push ⟨p.allocated, d, m⟩)))
    (fun fault => fault = .deadSignal s ∧ p.signals s = none) :=
  (p.aliveSignal_ends s).bind fun sig hs => ends_pure.mpr ⟨sig, hs, rfl⟩

end Ends

end Sigslot
end WebrtcNativeDemo
