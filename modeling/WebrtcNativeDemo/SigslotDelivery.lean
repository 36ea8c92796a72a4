import WebrtcNativeDemo.Sigslot

/-!
# What an emission delivers

Each signal is a list with a cursor that goes through it. Whatever the slots do in
between, to the firing signal too, the cursor stays on a connection that is there, and an
emission that returns has called every connection that was there all the time.
-/

namespace WebrtcNativeDemo.Sigslot

open Fallible (Ends)
open SafeWalk (Keeps Walked)

variable {M : Type}

/-! ### The list of a signal -/

namespace SignalBase

variable {sig sig' : SignalBase M} {bound : ℕ}

def Sound (bound : ℕ) (sig : SignalBase M) : Prop :=
  SafeWalk.Sound bound sig.nodes sig.currentIterator

def Keeps (bound : ℕ) (sig sig' : SignalBase M) : Prop :=
  SafeWalk.Keeps bound sig.nodes sig.currentIterator sig'.nodes sig'.currentIterator

theorem Keeps.refl (bound : ℕ) (sig : SignalBase M) : Keeps bound sig sig :=
  SafeWalk.Keeps.refl _ _ _

theorem nodes_erase (sig : SignalBase M) (n : ℕ) :
    (sig.erase n).nodes = sig.nodes.filter (· ≠ n) := by
  simp only [nodes, erase, List.filter_map]
  rfl

theorem Sound.erase (h : Sound bound sig) (n : ℕ) :
    Sound bound (sig.erase n) ∧ Keeps bound sig (sig.erase n) := by
  have hsound := SafeWalk.Sound.slide h n
  have hkeeps := SafeWalk.Sound.keeps_slide h n
  rw [← nodes_erase] at hsound hkeeps
  exact ⟨hsound, hkeeps⟩

theorem Sound.push (h : Sound bound sig) (d : ℕ) (m : M) :
    Sound (bound + 1) (sig.push ⟨bound, d, m⟩) ∧ Keeps bound sig (sig.push ⟨bound, d, m⟩) := by
  have hnodes : (sig.push ⟨bound, d, m⟩).nodes = sig.nodes ++ [bound] := by
    simp [nodes, SignalBase.push]
  have hsound := SafeWalk.Sound.push h (Nat.lt_succ_self bound)
  have hkeeps := SafeWalk.keeps_push bound sig.nodes sig.currentIterator
  rw [← hnodes] at hsound hkeeps
  exact ⟨hsound, hkeeps⟩

theorem Sound.slotDisconnect (h : Sound bound sig) (d : ℕ) :
    Sound bound (sig.slotDisconnect d) ∧ Keeps bound sig (sig.slotDisconnect d) := by
  have hfold (its : List (Connection M)) (sig' : SignalBase M) (h' : Sound bound sig')
      (hk : Keeps bound sig sig') :
      Sound bound (its.foldl (fun sig it => if it.dest = d then sig.erase it.node else sig) sig') ∧
        Keeps bound sig
          (its.foldl (fun sig it => if it.dest = d then sig.erase it.node else sig) sig') := by
    induction its generalizing sig' with
    | nil => exact ⟨h', hk⟩
    | cons it its ih =>
      rw [List.foldl_cons]
      split_ifs
      · obtain ⟨hs, hk'⟩ := h'.erase it.node
        exact ih _ hs (hk.trans hk' h.below (Nat.le_refl _))
      · exact ih _ h' hk
  exact hfold _ sig h (.refl bound sig)

end SignalBase

/-! ### What the calls leave of a walk -/

def Walkable (p : Sigslot M) : Prop :=
  ∀ s sig, p.signals s = some sig → sig.Sound p.allocated

/-- Nothing is called, and each signal that was there keeps its walk. -/
structure Quiet (p q : Sigslot M) : Prop where
  walkable : Walkable q
  allocated : p.allocated ≤ q.allocated
  built : p.builtSignals ≤ q.builtSignals
  firing : q.firing = p.firing
  fault : q.fault = p.fault
  hist : q.hist = p.hist
  signals : ∀ s sig', q.signals s = some sig' →
    (∃ sig, p.signals s = some sig ∧ sig.Keeps p.allocated sig') ∨
      p.builtSignals ≤ s ∧ s < q.builtSignals

variable {p q r : Sigslot M}

theorem Quiet.refl (h : Walkable p) : Quiet p p :=
  ⟨h, Nat.le_refl _, Nat.le_refl _, rfl, rfl, rfl, fun _ sig hs => .inl ⟨sig, hs, .refl _ _⟩⟩

theorem Quiet.trans (hp : Walkable p) (h : Quiet p q) (h' : Quiet q r) : Quiet p r := by
  refine ⟨h'.walkable, h.allocated.trans h'.allocated, h.built.trans h'.built,
    h'.firing.trans h.firing, h'.fault.trans h.fault, h'.hist.trans h.hist, fun s sig'' hs => ?_⟩
  rcases h'.signals s sig'' hs with ⟨sig', hs', hk'⟩ | ⟨hlow, hnew⟩
  · rcases h.signals s sig' hs' with ⟨sig, hs, hk⟩ | ⟨hlow, hnew⟩
    · exact .inl ⟨sig, hs, hk.trans hk' (hp s sig hs).below h.allocated⟩
    · exact .inr ⟨hlow, lt_of_lt_of_le hnew h'.built⟩
  · exact .inr ⟨h.built.trans hlow, hnew⟩

theorem quiet_setSlots (hp : Walkable p) (d : ℕ) (x : Option HasSlots) :
    Quiet p (p.setSlots d x) :=
  ⟨hp, Nat.le_refl _, Nat.le_refl _, rfl, rfl, rfl, fun _ sig hs => .inl ⟨sig, hs, .refl _ _⟩⟩

theorem quiet_setSignal (hp : Walkable p) {s : ℕ} {sig sig' : SignalBase M}
    (hs : p.signals s = some sig) (h : sig'.Sound p.allocated ∧ sig.Keeps p.allocated sig') :
    Quiet p (p.setSignal s (some sig')) := by
  refine ⟨?_, Nat.le_refl _, Nat.le_refl _, rfl, rfl, rfl, ?_⟩
  · intro t sig'' ht
    by_cases hts : t = s
    · subst hts
      obtain rfl : sig' = sig'' := by simpa [setSignal] using ht
      exact h.1
    · exact hp t sig'' (by simpa [setSignal, hts] using ht)
  · intro t sig'' ht
    by_cases hts : t = s
    · subst hts
      obtain rfl : sig' = sig'' := by simpa [setSignal] using ht
      exact .inl ⟨sig, hs, h.2⟩
    · exact .inl ⟨sig'', by simpa [setSignal, hts] using ht, .refl _ _⟩

theorem quiet_destroyed (hp : Walkable p) (s : ℕ) : Quiet p (p.setSignal s none) := by
  have hkept {t : ℕ} {sig : SignalBase M} (ht : (p.setSignal s none).signals t = some sig) :
      p.signals t = some sig := by
    by_cases hts : t = s
    · subst hts
      simp [setSignal] at ht
    · simpa [setSignal, hts] using ht
  exact ⟨fun t sig ht => hp t sig (hkept ht), Nat.le_refl _, Nat.le_refl _, rfl, rfl, rfl,
    fun t sig ht => .inl ⟨sig, hkept ht, .refl _ _⟩⟩

theorem quiet_newSignal (hp : Walkable p) : Quiet p p.newSignal := by
  have hcases {t : ℕ} {sig : SignalBase M} (ht : p.newSignal.signals t = some sig) :
      p.signals t = some sig ∨ t = p.builtSignals ∧ sig = {} := by
    by_cases hts : t = p.builtSignals
    · subst hts
      exact .inr ⟨rfl, by simpa [newSignal, setSignal, eq_comm] using ht⟩
    · exact .inl (by simpa [newSignal, setSignal, hts] using ht)
  refine ⟨?_, Nat.le_refl _, Nat.le_succ _, rfl, rfl, rfl, ?_⟩
  · intro t sig ht
    rcases hcases ht with ht | ⟨-, rfl⟩
    · exact hp t sig ht
    · exact SafeWalk.sound_nil _
  · intro t sig ht
    rcases hcases ht with ht | ⟨rfl, -⟩
    · exact .inl ⟨sig, ht, .refl _ _⟩
    · exact .inr ⟨Nat.le_refl _, Nat.lt_succ_self _⟩

/-! ### The calls one by one -/

/-- A failure that is not that of an iterator. -/
def DeadObject : Fault → Prop
  | .badIterator _ => False
  | _ => True

/-- A computation that leaves every walk as it is. -/
def Calm (p : Sigslot M) (x : Except Fault (Sigslot M)) : Prop := Ends x (Quiet p) DeadObject

theorem Calm.after (hp : Walkable p) (h : Quiet p q) {x : Except Fault (Sigslot M)}
    (hx : Calm q x) : Calm p x :=
  Ends.mono hx (fun _ hr => .trans hp h hr) fun _ hf => hf

theorem DeadObject.of_signal {fault : Fault} {s : ℕ} {P : Prop}
    (h : fault = .deadSignal s ∧ P) : DeadObject fault := by
  rw [h.1]
  trivial

theorem DeadObject.of_slots {fault : Fault} {d : ℕ} {P : Prop}
    (h : fault = .deadSlots d ∧ P) : DeadObject fault := by
  rw [h.1]
  trivial

theorem signalConnect_calm (hp : Walkable p) (d sender : ℕ) :
    Calm p (p.signalConnect d sender) := by
  refine (p.signalConnect_ends d sender).mono ?_ fun _ h => .of_slots h
  rintro _ ⟨x, -, rfl⟩
  exact quiet_setSlots hp d _

theorem signalDisconnect_calm (hp : Walkable p) (d sender : ℕ) :
    Calm p (p.signalDisconnect d sender) := by
  refine (p.signalDisconnect_ends d sender).mono ?_ fun _ h => .of_slots h
  rintro _ ⟨x, -, rfl⟩
  exact quiet_setSlots hp d _

theorem slotDisconnect_calm (hp : Walkable p) (s pslot : ℕ) :
    Calm p (p.slotDisconnect s pslot) := by
  refine (p.slotDisconnect_ends s pslot).mono ?_ fun _ h => .of_signal h
  rintro _ ⟨sig, hs, rfl⟩
  exact quiet_setSignal hp hs ((hp s sig hs).slotDisconnect pslot)

theorem pushBack_calm (hp : Walkable p) (s d : ℕ) (m : M) : Calm p (p.pushBack s d m) := by
  refine (p.pushBack_ends s d m).mono ?_ fun _ h => .of_signal h
  rintro _ ⟨sig, hs, rfl⟩
  obtain ⟨hsound, hkeeps⟩ := (hp s sig hs).push d m
  have hcases {t : ℕ} {sig' : SignalBase M}
      (ht : ({ p with allocated := p.allocated + 1 }.setSignal s
        (some (sig.push ⟨p.allocated, d, m⟩))).signals t = some sig') :
      t = s ∧ sig' = sig.push ⟨p.allocated, d, m⟩ ∨ p.signals t = some sig' := by
    by_cases hts : t = s
    · subst hts
      exact .inl ⟨rfl, by simpa [setSignal, eq_comm] using ht⟩
    · exact .inr (by simpa [setSignal, hts] using ht)
  refine ⟨?_, Nat.le_succ _, Nat.le_refl _, rfl, rfl, rfl, ?_⟩
  · intro t sig' ht
    rcases hcases ht with ⟨-, rfl⟩ | ht
    · exact hsound
    · exact (hp t sig' ht).mono (Nat.le_succ _)
  · intro t sig' ht
    rcases hcases ht with ⟨rfl, rfl⟩ | ht
    · exact .inl ⟨sig, hs, hkeeps⟩
    · exact .inl ⟨sig', ht, .refl _ _⟩

theorem alive_calm {α : Type} {x : Except Fault α} {mid : α → Prop} {fail : Fault → Prop}
    {f : α → Except Fault (Sigslot M)} (hx : Ends x mid fail)
    (hfail : ∀ fault, fail fault → DeadObject fault) (hf : ∀ a, mid a → Calm p (f a)) :
    Calm p (x >>= f) :=
  (hx.mono (fun _ ha => ha) hfail).bind hf

theorem foldlM_calm {α : Type} {f : Sigslot M → α → Except Fault (Sigslot M)}
    (hf : ∀ a q, Walkable q → Calm q (f q a)) (hp : Walkable p) (h : Quiet p q) (as : List α) :
    Calm p (as.foldlM f q) :=
  Ends.foldlM (I := fun _ => Quiet p) (fun a _ _ hs => Calm.after hp hs (hf a _ hs.walkable)) h

theorem bind_calm (hp : Walkable p) {x : Except Fault (Sigslot M)}
    {f : Sigslot M → Except Fault (Sigslot M)} (hx : Calm p x)
    (hf : ∀ q, Walkable q → Calm q (f q)) : Calm p (x >>= f) :=
  Ends.bind hx fun q hq => Calm.after hp hq (hf q hq.walkable)

theorem slotDuplicate_calm (hp : Walkable p) (s oldtarget newtarget : ℕ) :
    Calm p (p.slotDuplicate s oldtarget newtarget) :=
  alive_calm (p.aliveSignal_ends s) (fun _ => .of_signal) fun _ _ =>
    foldlM_calm (fun it _ hq => pushBack_calm hq s newtarget it.method) hp (.refl hp) _

theorem copySignal_calm (hp : Walkable p) (s : ℕ) : Calm p (p.copySignal s) :=
  alive_calm (p.aliveSignal_ends s) (fun _ => .of_signal) fun _ _ =>
    foldlM_calm (fun it _ hq => bind_calm hq (signalConnect_calm hq _ _)
      fun _ hr => pushBack_calm hr _ _ it.method) hp (quiet_newSignal hp) _

theorem quiet_newSlots (hp : Walkable p) : Quiet p p.newSlots :=
  ⟨hp, Nat.le_refl _, Nat.le_refl _, rfl, rfl, rfl, fun _ sig hs => .inl ⟨sig, hs, .refl _ _⟩⟩

theorem copySlots_calm (hp : Walkable p) (d : ℕ) : Calm p (p.copySlots d) :=
  alive_calm (p.aliveSlots_ends d) (fun _ => .of_slots) fun _ _ =>
    foldlM_calm (fun s _ hq => bind_calm hq (slotDuplicate_calm hq s _ _)
      fun _ hr => signalConnect_calm hr _ _) hp (quiet_newSlots hp) _

theorem connect_calm (hp : Walkable p) (s d : ℕ) (m : M) : Calm p (p.connect s d m) :=
  bind_calm hp (pushBack_calm hp s d m) fun _ hq => signalConnect_calm hq d s

theorem disconnect_calm (hp : Walkable p) (s d : ℕ) : Calm p (p.disconnect s d) := by
  refine alive_calm (p.aliveSignal_ends s) (fun _ => .of_signal) fun sig hs => ?_
  split
  · exact Fallible.ends_pure.mpr (.refl hp)
  · rename_i it _
    have herase := quiet_setSignal hp hs ((hp s sig hs).erase it.node)
    exact Calm.after hp herase (signalDisconnect_calm herase.walkable d s)

theorem disconnectAll_calm (hp : Walkable p) (s : ℕ) : Calm p (p.disconnectAll s) := by
  refine alive_calm (p.aliveSignal_ends s) (fun _ => .of_signal) fun sig hs => ?_
  have hloop : Ends (sig.connectedSlots.foldlM (fun p it => p.signalDisconnect it.dest s) p)
      (fun q => Quiet p q ∧ q.signals s = some sig) DeadObject := by
    refine Ends.foldlM (I := fun _ q => Quiet p q ∧ q.signals s = some sig) ?_ ⟨.refl hp, hs⟩
    intro it _ q hq
    refine (q.signalDisconnect_ends it.dest s).mono ?_ fun _ => .of_slots
    rintro _ ⟨x, -, rfl⟩
    exact ⟨.trans hp hq.1 (quiet_setSlots hq.1.walkable _ _), hq.2⟩
  refine hloop.bind fun q hq => Fallible.ends_pure.mpr ?_
  exact .trans hp hq.1 (quiet_setSignal hq.1.walkable hq.2
    ⟨SafeWalk.sound_nil _, SafeWalk.keeps_nil _ _ _⟩)

theorem slotsDisconnectAll_calm (hp : Walkable p) (d : ℕ) : Calm p (p.slotsDisconnectAll d) :=
  alive_calm (p.aliveSlots_ends d) (fun _ => .of_slots) fun _ _ =>
    foldlM_calm (fun s _ hq => slotDisconnect_calm hq s d) hp (quiet_setSlots hp d _) _

def Event.fires : Event M → Bool
  | .emit _ | .turn => true
  | _ => false

theorem apply_calm (hp : Walkable p) {e : Event M} (he : e.fires = false) :
    Calm p (p.apply e) := by
  cases e with
  | newSignal => exact Fallible.ends_ok.mpr (quiet_newSignal hp)
  | newSlots => exact Fallible.ends_ok.mpr (quiet_newSlots hp)
  | copySignal s => exact copySignal_calm hp s
  | copySlots d => exact copySlots_calm hp d
  | connect s d m => exact connect_calm hp s d m
  | disconnect s d => exact disconnect_calm hp s d
  | disconnectAll s => exact disconnectAll_calm hp s
  | slotsDisconnectAll d => exact slotsDisconnectAll_calm hp d
  | destroySignal s =>
    exact bind_calm hp (disconnectAll_calm hp s) fun q hq =>
      Fallible.ends_pure.mpr (quiet_destroyed hq s)
  | destroySlots d =>
    exact bind_calm hp (slotsDisconnectAll_calm hp d) fun q hq =>
      Fallible.ends_pure.mpr (quiet_setSlots hq d none)
  | emit s | turn => cases he

/-! ### A turn of the loop -/

/-- What a turn of the innermost emission does. -/
inductive Turned (p : Sigslot M) (e : Emission) (rest : List Emission) : Sigslot M → Prop
  | returns {sig : SignalBase M} (hs : p.signals e.signal = some sig)
      (hend : sig.currentIterator = none) :
      Turned p e rest { p with firing := rest.map e.absorb }
  | calls {sig : SignalBase M} {conn : Connection M} (hs : p.signals e.signal = some sig)
      (hcur : sig.currentIterator = some conn.node) (hconn : conn ∈ sig.connectedSlots)
      (hdest : (p.slots conn.dest).isSome = true) :
      Turned p e rest { p.setSignal e.signal (some { sig with
          currentIterator := SafeWalk.following sig.nodes conn.node }) with
        firing := { e with called := e.called ++ [conn.node] } :: rest
        hist := p.hist ++ [⟨e.signal, conn.dest, conn.method⟩] }

/-- How a turn fails: the firing signal is destroyed, or a slot it would call. -/
inductive TurnFails (p : Sigslot M) (e : Emission) : Fault → Prop
  | deadSignal (hs : p.signals e.signal = none) : TurnFails p e (.deadSignal e.signal)
  | deadSlots {sig : SignalBase M} {conn : Connection M} (hs : p.signals e.signal = some sig)
      (hconn : conn ∈ sig.connectedSlots) (hdest : p.slots conn.dest = none) :
      TurnFails p e (.deadSlots conn.dest)

theorem turn_ends (hp : Walkable p) {e : Emission} {rest : List Emission}
    (hf : p.firing = e :: rest) : Ends p.turn (Turned p e rest) (TurnFails p e) := by
  rw [turn, hf]
  refine ((p.aliveSignal_ends e.signal).mono (fun _ hs => hs) ?_).bind fun sig hs => ?_
  · rintro _ ⟨rfl, hs⟩
    exact .deadSignal hs
  · cases hcur : sig.currentIterator with
    | none => exact Fallible.ends_pure.mpr (.returns hs hcur)
    | some n =>
      obtain ⟨conn, hconn, hn⟩ := List.mem_map.mp ((hp _ sig hs).mem n hcur)
      simp only
      cases hfind : sig.connectedSlots.find? (·.node = n) with
      | none => exact absurd hn (by simpa using List.find?_eq_none.mp hfind conn hconn)
      | some conn =>
        have hconn := List.mem_of_find?_eq_some hfind
        obtain rfl : conn.node = n := by simpa using List.find?_some hfind
        have hturn : _ → Turned p e rest _ := .calls hs hcur hconn
        refine ((aliveSlots_ends _ conn.dest).mono (fun _ hx => hx) ?_).bind fun x hx => ?_
        · rintro _ ⟨rfl, hdest⟩
          exact .deadSlots hs hconn hdest
        · exact Fallible.ends_pure.mpr (hturn (Option.isSome_iff_exists.mpr ⟨x, hx⟩))

/-! ### Emissions -/

structure Firing (p : Sigslot M) : Prop where
  walkable : Walkable p
  alive : ∀ s sig, p.signals s = some sig → s < p.builtSignals
  built : ∀ e ∈ p.firing, e.signal < p.builtSignals
  begun : ∀ e ∈ p.firing, e.begun ≤ p.allocated
  called : ∀ e ∈ p.firing, e.called.Pairwise (· < ·)
  nested : p.firing.Pairwise fun e f => f.begun ≤ e.begun
  -- the cursor of a signal is that of its innermost emission
  walked : ∀ above e below, p.firing = above ++ e :: below → (∀ f ∈ above, f.signal ≠ e.signal) →
    ∀ sig, p.signals e.signal = some sig →
      Walked e.begun sig.nodes sig.currentIterator e.called e.nested

theorem firing_quiet (h : Firing p) (hq : Quiet p q) : Firing q := by
  refine ⟨hq.walkable, ?_, ?_, ?_, ?_, ?_, ?_⟩
  · intro s sig hs
    rcases hq.signals s sig hs with ⟨sig', hs', -⟩ | ⟨-, hnew⟩
    · exact lt_of_lt_of_le (h.alive s sig' hs') hq.built
    · exact hnew
  · intro e he
    exact lt_of_lt_of_le (h.built e (hq.firing ▸ he)) hq.built
  · intro e he
    exact (h.begun e (hq.firing ▸ he)).trans hq.allocated
  · rw [hq.firing]
    exact h.called
  · rw [hq.firing]
    exact h.nested
  · intro above e below hsplit habove sig hs
    rw [hq.firing] at hsplit
    have he : e ∈ p.firing := by simp [hsplit]
    rcases hq.signals e.signal sig hs with ⟨sig', hs', hk⟩ | ⟨hlow, -⟩
    · exact (h.walked above e below hsplit habove sig' hs').keeps hk (h.begun e he)
    · exact absurd (h.built e he) (Nat.not_lt.mpr hlow)

theorem emit_ends (p : Sigslot M) (s : ℕ) : Ends (p.emit s)
    (fun q => ∃ sig, p.signals s = some sig ∧
      q = { p with firing := ⟨s, p.allocated, [], []⟩ :: p.firing }.setSignal s
        (some { sig with currentIterator := sig.nodes.head? }))
    (fun fault => fault = .deadSignal s ∧ p.signals s = none) :=
  (p.aliveSignal_ends s).bind fun sig hs => Fallible.ends_pure.mpr ⟨sig, hs, rfl⟩

/-- Moving the cursor of one signal leaves the others as they are. -/
theorem walkable_cursor (hp : Walkable p) {s : ℕ} {sig' : SignalBase M}
    (hsound : sig'.Sound p.allocated) (firing : List Emission) (hist : List (Emitted M)) :
    Walkable { p.setSignal s (some sig') with firing, hist } := by
  intro t sig'' ht
  by_cases hts : t = s
  · subst hts
    obtain rfl : sig' = sig'' := by simpa [setSignal] using ht
    exact hsound
  · exact hp t sig'' (by simpa [setSignal, hts] using ht)

theorem firing_emit (h : Firing p) {s : ℕ} {sig : SignalBase M} (hs : p.signals s = some sig) :
    Firing ({ p with firing := ⟨s, p.allocated, [], []⟩ :: p.firing }.setSignal s
      (some { sig with currentIterator := sig.nodes.head? })) := by
  have hsound := h.walkable s sig hs
  have hhead : ({ sig with currentIterator := sig.nodes.head? } : SignalBase M).Sound
      p.allocated := ⟨hsound.sorted, hsound.below, fun c hc => List.mem_of_mem_head? hc⟩
  have hbuilt := h.alive s sig hs
  refine ⟨walkable_cursor h.walkable hhead _ p.hist, ?_, ?_, ?_, ?_, ?_, ?_⟩
  · intro t sig' ht
    by_cases hts : t = s
    · exact hts ▸ hbuilt
    · exact h.alive t sig' (by simpa [setSignal, hts] using ht)
  · exact List.forall_mem_cons.mpr ⟨hbuilt, h.built⟩
  · exact List.forall_mem_cons.mpr ⟨Nat.le_refl _, h.begun⟩
  · exact List.forall_mem_cons.mpr ⟨.nil, h.called⟩
  · exact List.pairwise_cons.mpr ⟨h.begun, h.nested⟩
  · intro above e below hsplit habove sig' hs'
    cases above with
    | nil =>
      obtain ⟨rfl, -⟩ := List.cons.inj hsplit
      obtain rfl : { sig with currentIterator := sig.nodes.head? } = sig' := by
        simpa [setSignal] using hs'
      exact SafeWalk.walked_begin hsound.sorted
    | cons f above =>
      obtain ⟨rfl, hrest⟩ := List.cons.inj hsplit
      obtain ⟨hne, habove⟩ := List.forall_mem_cons.mp habove
      refine h.walked above e below hrest habove sig' ?_
      have hes : e.signal ≠ s := fun heq => hne heq.symm
      simpa [setSignal, hes] using hs'

theorem absorb_signal (e f : Emission) : (e.absorb f).signal = f.signal := by
  unfold Emission.absorb
  split_ifs <;> rfl

theorem absorb_begun (e f : Emission) : (e.absorb f).begun = f.begun := by
  unfold Emission.absorb
  split_ifs <;> rfl

theorem absorb_called (e f : Emission) : (e.absorb f).called = f.called := by
  unfold Emission.absorb
  split_ifs <;> rfl

theorem firing_returns (h : Firing p) {e : Emission} {rest : List Emission}
    (hf : p.firing = e :: rest) {sig : SignalBase M} (hs : p.signals e.signal = some sig)
    (hend : sig.currentIterator = none) : Firing { p with firing := rest.map e.absorb } := by
  have hmem {f : Emission} (hfr : f ∈ rest) : f ∈ p.firing := by simp [hf, hfr]
  obtain ⟨horder, hnested⟩ := List.pairwise_cons.mp (hf ▸ h.nested)
  refine ⟨h.walkable, h.alive, ?_, ?_, ?_, ?_, ?_⟩
  · refine List.forall_mem_map.mpr fun f hfr => ?_
    rw [absorb_signal]
    exact h.built f (hmem hfr)
  · refine List.forall_mem_map.mpr fun f hfr => ?_
    rw [absorb_begun]
    exact h.begun f (hmem hfr)
  · refine List.forall_mem_map.mpr fun f hfr => ?_
    rw [absorb_called]
    exact h.called f (hmem hfr)
  · refine List.pairwise_map.mpr (hnested.imp fun {f g} hfg => ?_)
    rwa [absorb_begun, absorb_begun]
  · intro above' f' below' hsplit habove sig' hs'
    obtain ⟨above, tail, rfl, rfl, htail⟩ := List.map_eq_append_iff.mp hsplit
    obtain ⟨f, below, rfl, rfl, rfl⟩ := List.map_eq_cons_iff.mp htail
    rw [absorb_signal] at hs'
    have habove' : ∀ g ∈ above, g.signal ≠ f.signal := by
      intro g hg heq
      refine habove (e.absorb g) (List.mem_map_of_mem hg) ?_
      rw [absorb_signal, absorb_signal, heq]
    by_cases hfe : f.signal = e.signal
    · -- what has returned went through the list for the waiting emission too
      rw [hfe] at hs'
      obtain rfl : sig = sig' := Option.some.inj (hs.symm.trans hs')
      have hwalked := h.walked [] e _ (by simpa using hf) (by simp) sig hs
      rw [hend] at hwalked ⊢
      have habsorb : e.absorb f = { f with nested := f.nested ++ e.called ++ e.nested } := by
        simp [Emission.absorb, hfe]
      rw [habsorb]
      exact hwalked.absorb (horder f (by simp))
    · have habsorb : e.absorb f = f := by simp [Emission.absorb, hfe]
      rw [habsorb]
      refine h.walked (e :: above) f below (by simpa using hf) ?_ sig' hs'
      exact List.forall_mem_cons.mpr ⟨fun heq => hfe heq.symm, habove'⟩

theorem firing_calls (h : Firing p) {e : Emission} {rest : List Emission}
    (hf : p.firing = e :: rest) {sig : SignalBase M} {n : ℕ} (hs : p.signals e.signal = some sig)
    (hcur : sig.currentIterator = some n) (hist : List (Emitted M)) :
    Firing { p.setSignal e.signal (some { sig with
        currentIterator := SafeWalk.following sig.nodes n }) with
      firing := { e with called := e.called ++ [n] } :: rest
      hist } := by
  have hsound := h.walkable _ sig hs
  have hwalked := h.walked [] e rest hf (by simp) sig hs
  simp only [SignalBase.Sound, hcur] at hsound hwalked
  have hmem {f : Emission} (hfr : f ∈ rest) : f ∈ p.firing := by simp [hf, hfr]
  have he : e ∈ p.firing := by simp [hf]
  obtain ⟨horder, hnested⟩ := List.pairwise_cons.mp (hf ▸ h.nested)
  have hnext : ({ sig with currentIterator := SafeWalk.following sig.nodes n } :
      SignalBase M).Sound p.allocated := hsound.advance
  refine ⟨walkable_cursor h.walkable hnext _ hist, ?_, ?_, ?_, ?_, ?_, ?_⟩
  · intro t sig' ht
    by_cases hts : t = e.signal
    · exact hts ▸ h.built e he
    · exact h.alive t sig' (by simpa [setSignal, hts] using ht)
  · exact List.forall_mem_cons.mpr ⟨h.built e he, fun f hfr => h.built f (hmem hfr)⟩
  · exact List.forall_mem_cons.mpr ⟨h.begun e he, fun f hfr => h.begun f (hmem hfr)⟩
  · refine List.forall_mem_cons.mpr ⟨?_, fun f hfr => h.called f (hmem hfr)⟩
    refine List.pairwise_append.mpr ⟨h.called e he, List.pairwise_singleton _ _, ?_⟩
    intro m hm c hc
    rw [List.mem_singleton.mp hc]
    exact hwalked.before n rfl m hm
  · exact List.pairwise_cons.mpr ⟨horder, hnested⟩
  · intro above f below hsplit habove sig' hs'
    cases above with
    | nil =>
      obtain ⟨rfl, -⟩ := List.cons.inj hsplit
      obtain rfl : { sig with currentIterator := SafeWalk.following sig.nodes n } = sig' := by
        simpa [setSignal] using hs'
      exact hwalked.advance hsound
    | cons g above =>
      obtain ⟨rfl, hrest⟩ := List.cons.inj hsplit
      obtain ⟨hne, habove⟩ := List.forall_mem_cons.mp habove
      have hfe : f.signal ≠ e.signal := fun heq => hne heq.symm
      refine h.walked (e :: above) f below (by simp [hf, hrest]) ?_ sig' ?_
      · exact List.forall_mem_cons.mpr ⟨hne, habove⟩
      · simpa [setSignal, hfe] using hs'

/-! ### Runs -/

theorem step_applies {e : Event M} (he : p.step e = some q) :
    p.fault = none ∧ p.enabled e = true ∧
      (p.apply e = .ok q ∨
        ∃ fault, p.apply e = .error fault ∧ q = { p with fault := some fault }) := by
  simp only [step] at he
  split_ifs at he with hgo
  refine ⟨hgo.1, hgo.2, ?_⟩
  cases ha : p.apply e with
  | ok r =>
    rw [ha] at he
    exact .inl (congrArg _ (Option.some.inj he))
  | error fault =>
    rw [ha] at he
    exact .inr ⟨fault, rfl, (Option.some.inj he).symm⟩

theorem firing_apply {e : Event M} (h : Firing p) :
    Ends (p.apply e) (fun q => Firing q ∧ q.fault = p.fault) DeadObject := by
  cases e with
  | emit s =>
    refine (p.emit_ends s).mono ?_ fun _ => .of_signal
    rintro _ ⟨sig, hs, rfl⟩
    exact ⟨firing_emit h hs, rfl⟩
  | turn =>
    cases hf : p.firing with
    | nil => simpa [apply, turn, hf] using h
    | cons e rest =>
      refine (turn_ends h.walkable hf).mono ?_ ?_
      · intro q hq
        cases hq with
        | returns hs hend => exact ⟨firing_returns h hf hs hend, rfl⟩
        | calls hs hcur => exact ⟨firing_calls h hf hs hcur _, rfl⟩
      · intro fault hfault
        cases hfault <;> trivial
  | newSignal | newSlots | copySignal s | copySlots d | connect s d m | disconnect s d
  | disconnectAll s | slotsDisconnectAll d | destroySignal s | destroySlots d =>
    exact Ends.mono (apply_calm h.walkable rfl) (fun _ hq => ⟨firing_quiet h hq, hq.fault⟩)
      fun _ hf => hf

theorem firing_start : Firing ({} : Sigslot M) :=
  ⟨by simp [Walkable], by simp, by simp, by simp, by simp, by simp, by simp⟩

theorem Firing.failed (h : Firing p) (fault : Fault) : Firing { p with fault := some fault } :=
  ⟨h.walkable, h.alive, h.built, h.begun, h.called, h.nested, h.walked⟩

theorem firing_reachable (h : system.Reachable p) :
    Firing p ∧ ∀ fault, p.fault = some fault → DeadObject fault := by
  apply h.invariant (I := fun p : Sigslot M =>
    Firing p ∧ ∀ fault, p.fault = some fault → DeadObject fault)
  · rintro _ rfl
    exact ⟨firing_start, by simp⟩
  · intro a e b he ha
    obtain ⟨hfault, -, happly | ⟨fault, happly, rfl⟩⟩ := step_applies he
    · obtain ⟨hb, hkept⟩ := (firing_apply ha.1).1 b happly
      exact ⟨hb, by simp [hkept, hfault]⟩
    · refine ⟨ha.1.failed fault, ?_⟩
      rintro _ ⟨rfl⟩
      exact (firing_apply ha.1).2 fault happly

/-- Whatever the slots do while a signal fires, its iterator is at the end or on a
connection that is in the list. -/
theorem iterator_valid (h : system.Reachable p) :
    (∀ s sig n, p.signals s = some sig → sig.currentIterator = some n →
      ∃ conn ∈ sig.connectedSlots, conn.node = n) ∧
    ∀ s, p.fault ≠ some (.badIterator s) := by
  obtain ⟨hfiring, hfault⟩ := firing_reachable h
  constructor
  · intro s sig n hs hn
    exact List.mem_map.mp ((hfiring.walkable s sig hs).mem n hn)
  · intro s hs
    exact hfault _ hs

/-- A slot that is called fires the signal again. -/
def nestedEmission : List (Event String) :=
  [.newSignal, .newSlots, .newSlots, .connect 0 0 "a", .connect 0 1 "b", .emit 0, .turn, .emit 0,
    .turn, .disconnect 0 1]

theorem iterator_valid_nested : ∃ p : Sigslot String,
    system.exec {} nestedEmission = some p ∧ p.firing.length = 2 ∧
    (∀ s sig n, p.signals s = some sig → sig.currentIterator = some n →
      ∃ conn ∈ sig.connectedSlots, conn.node = n) ∧
    ∀ s, p.fault ≠ some (.badIterator s) :=
  ⟨_, rfl, rfl, iterator_valid ⟨{}, nestedEmission, rfl, rfl⟩⟩

/-- An emission that returns has called, each once and in the order in which they were
made, or waited for an emission of the same signal that did, all connections that were
there when it began and still are. -/
theorem emission_complete (h : system.Reachable p) {e : Emission} {rest : List Emission}
    (hf : p.firing = e :: rest) (hq : p.step .turn = some q)
    (hreturn : q.firing.length = rest.length) :
    ∃ sig, p.signals e.signal = some sig ∧ e.called.Pairwise (· < ·) ∧
      ∀ conn ∈ sig.connectedSlots, conn.node < e.begun →
        conn.node ∈ e.called ∨ conn.node ∈ e.nested := by
  obtain ⟨hfiring, -⟩ := firing_reachable h
  obtain ⟨-, -, happly | ⟨fault, happly, rfl⟩⟩ := step_applies hq
  · cases (turn_ends hfiring.walkable hf).1 q happly with
    | @returns sig hs hend =>
      have hwalked := hfiring.walked [] e rest hf (by simp) sig hs
      rw [hend] at hwalked
      refine ⟨sig, hs, hfiring.called e (by simp [hf]), fun conn hconn hlow => ?_⟩
      exact hwalked.complete conn.node (List.mem_map_of_mem hconn) hlow
    | calls hs hcur hconn hdest => simp at hreturn
  · simp [hf] at hreturn

theorem emission_complete_nested : ∃ (p q : Sigslot String) (e : Emission),
    system.exec {} (nestedEmission ++ [.turn]) = some p ∧ p.firing = [e] ∧
    p.step .turn = some q ∧ e.nested = [0] ∧
    ∃ sig, p.signals e.signal = some sig ∧ e.called.Pairwise (· < ·) ∧
      ∀ conn ∈ sig.connectedSlots, conn.node < e.begun →
        conn.node ∈ e.called ∨ conn.node ∈ e.nested :=
  ⟨_, _, _, rfl, rfl, rfl, rfl,
    emission_complete ⟨{}, nestedEmission ++ [.turn], rfl, rfl⟩ rfl rfl rfl⟩

end WebrtcNativeDemo.Sigslot
