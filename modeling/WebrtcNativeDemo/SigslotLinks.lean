import Mathlib.Data.List.Nodup
import WebrtcNativeDemo.SigslotDelivery

/-!
# Connections and senders

A connection is known on both sides: it stands in the list of its signal, and the signal
in the set of its slot, whose destructor goes by that set. What each call makes of the
two is compared with a set of links. They stay the same as long as no slot is
disconnected that is connected to a signal more than once: `disconnect` takes out one
connection and forgets the sender with it.
-/

namespace WebrtcNativeDemo.Sigslot

open Fallible (Ends ends_pure)

variable {M : Type}

def dests (p : Sigslot M) (s : ℕ) : List ℕ := ((p.signals s).map SignalBase.dests).getD []

def senders (p : Sigslot M) (d : ℕ) : List ℕ := ((p.slots d).map HasSlots.senders).getD []

/-- Each sender of a slot has a connection to it. -/
structure Known (p : Sigslot M) : Prop where
  known : ∀ s d, s ∈ p.senders d → d ∈ p.dests s
  built : ∀ d x, p.slots d = some x → d < p.builtSlots

/-- Each connection leads to a slot that knows its sender. -/
def Linked (p : Sigslot M) : Prop := ∀ s d, d ∈ p.dests s → s ∈ p.senders d

/-! ### Links made and unmade -/

/-- The links from a signal to a slot that a call makes. -/
def links (p : Sigslot M) : Event M → ℕ → ℕ → Prop
  | .copySignal s, t, c => t = p.builtSignals ∧ c ∈ p.dests s
  | .copySlots d, t, c => c = p.builtSlots ∧ t ∈ p.senders d
  | .connect s d _, t, c => t = s ∧ c = d
  | _, _, _ => False

def unlinks : Event M → ℕ → ℕ → Prop
  | .disconnect s d, t, c => t = s ∧ c = d
  | .disconnectAll s, t, _ | .destroySignal s, t, _ => t = s
  | .slotsDisconnectAll d, _, c | .destroySlots d, _, c => c = d
  | _, _, _ => False

/-- The connections that are left of a link which a call unmakes: those after the first,
and those of a sender that the slot does not know. -/
def leaves (p : Sigslot M) : Event M → ℕ → ℕ → Prop
  | .disconnect s d, _, _ => 2 ≤ (p.dests s).count d
  | .slotsDisconnectAll d, t, _ | .destroySlots d, t, _ => t ∉ p.senders d
  | _, _, _ => False

structure Relinks (p : Sigslot M) (e : Event M) (q : Sigslot M) : Prop where
  dests : ∀ t c, c ∈ q.dests t ↔ (c ∈ p.dests t ∧ (unlinks e t c → p.leaves e t c)) ∨ p.links e t c
  senders : ∀ t c, t ∈ q.senders c ↔ (t ∈ p.senders c ∧ ¬ unlinks e t c) ∨ p.links e t c
  built : ∀ d x, q.slots d = some x → d < q.builtSlots

/-! ### The two sides of a state -/

variable {p q : Sigslot M} {s d : ℕ}

theorem dests_eq {sig : SignalBase M} (h : p.signals s = some sig) : p.dests s = sig.dests := by
  simp [dests, h]

theorem senders_eq {x : HasSlots} (h : p.slots d = some x) : p.senders d = x.senders := by
  simp [senders, h]

theorem alive_of_dest (h : d ∈ p.dests s) : ∃ sig, p.signals s = some sig ∧ d ∈ sig.dests := by
  cases hs : p.signals s with
  | none => simp [dests, hs] at h
  | some sig => exact ⟨sig, rfl, by simpa [dests, hs] using h⟩

theorem alive_of_sender (h : s ∈ p.senders d) : ∃ x, p.slots d = some x ∧ s ∈ x.senders := by
  cases hd : p.slots d with
  | none => simp [senders, hd] at h
  | some x => exact ⟨x, rfl, by simpa [senders, hd] using h⟩

@[simp] theorem dests_setSignal (p : Sigslot M) (s : ℕ) (sig : SignalBase M) (t : ℕ) :
    (p.setSignal s (some sig)).dests t = if t = s then sig.dests else p.dests t := by
  by_cases h : t = s
  · subst h
    simp [dests, setSignal]
  · simp [dests, setSignal, h]

@[simp] theorem dests_destroyed (p : Sigslot M) (s t : ℕ) :
    (p.setSignal s none).dests t = if t = s then [] else p.dests t := by
  by_cases h : t = s
  · subst h
    simp [dests, setSignal]
  · simp [dests, setSignal, h]

@[simp] theorem senders_setSignal (p : Sigslot M) (s : ℕ) (sig : Option (SignalBase M)) (c : ℕ) :
    (p.setSignal s sig).senders c = p.senders c := rfl

@[simp] theorem senders_setSlots (p : Sigslot M) (d : ℕ) (x : HasSlots) (c : ℕ) :
    (p.setSlots d (some x)).senders c = if c = d then x.senders else p.senders c := by
  by_cases h : c = d
  · subst h
    simp [senders, setSlots]
  · simp [senders, setSlots, h]

@[simp] theorem senders_destroyed (p : Sigslot M) (d c : ℕ) :
    (p.setSlots d none).senders c = if c = d then [] else p.senders c := by
  by_cases h : c = d
  · subst h
    simp [senders, setSlots]
  · simp [senders, setSlots, h]

@[simp] theorem dests_setSlots (p : Sigslot M) (d : ℕ) (x : Option HasSlots) (t : ℕ) :
    (p.setSlots d x).dests t = p.dests t := rfl

/-! ### Lists of connections -/

theorem mem_dests_push {sig : SignalBase M} {n : ℕ} {m : M} {c : ℕ} :
    c ∈ (sig.push ⟨n, d, m⟩).dests ↔ c ∈ sig.dests ∨ c = d := by
  simp [SignalBase.dests, SignalBase.push]

theorem node_injective {bound : ℕ} {sig : SignalBase M} (h : sig.Sound bound)
    {conn conn' : Connection M} (hc : conn ∈ sig.connectedSlots)
    (hc' : conn' ∈ sig.connectedSlots) (hn : conn.node = conn'.node) : conn = conn' := by
  have hnodup : sig.nodes.Nodup := h.sorted.imp fun hlt => Nat.ne_of_lt hlt
  exact List.inj_on_of_nodup_map hnodup hc hc' hn

theorem mem_slotDisconnect {bound : ℕ} {sig : SignalBase M} (h : sig.Sound bound) (d : ℕ)
    {c : ℕ} : c ∈ (sig.slotDisconnect d).dests ↔ c ∈ sig.dests ∧ c ≠ d := by
  have hfold (its : List (Connection M)) (sig' : SignalBase M) (conn : Connection M) :
      conn ∈ (its.foldl (fun sig it => if it.dest = d then sig.erase it.node else sig)
        sig').connectedSlots ↔ conn ∈ sig'.connectedSlots ∧
          ∀ it ∈ its, it.dest = d → conn.node ≠ it.node := by
    induction its generalizing sig' with
    | nil => simp
    | cons it its ih =>
      rw [List.foldl_cons, ih]
      by_cases hit : it.dest = d
      · simp [hit, SignalBase.erase, and_assoc]
      · simp [hit]
  simp only [SignalBase.dests, List.mem_map, SignalBase.slotDisconnect, hfold]
  constructor
  · rintro ⟨conn, ⟨hconn, hall⟩, rfl⟩
    exact ⟨⟨conn, hconn, rfl⟩, fun hd => hall conn hconn hd rfl⟩
  · rintro ⟨⟨conn, hconn, rfl⟩, hne⟩
    refine ⟨conn, ⟨hconn, fun it hit hd hn => hne ?_⟩, rfl⟩
    rw [node_injective h hconn hit hn, hd]

/-- The first connection to a slot is erased, and any others are left. -/
theorem mem_dests_erase {bound : ℕ} {sig : SignalBase M} (h : sig.Sound bound)
    {it : Connection M} (hit : it ∈ sig.connectedSlots) {c : ℕ} :
    c ∈ (sig.erase it.node).dests ↔
      c ∈ sig.dests ∧ (c = it.dest → 2 ≤ sig.dests.count it.dest) := by
  obtain ⟨pre, post, hsplit⟩ := List.append_of_mem hit
  have hnodup : sig.nodes.Nodup := h.sorted.imp fun hlt => Nat.ne_of_lt hlt
  rw [SignalBase.nodes, hsplit, List.map_append, List.map_cons, List.nodup_middle,
    List.nodup_cons, ← List.map_append] at hnodup
  have hkept : ∀ conn ∈ pre ++ post, decide (conn.node ≠ it.node) = true := by
    intro conn hconn
    simp only [decide_eq_true_eq]
    exact fun hn => hnodup.1 (List.mem_map.mpr ⟨conn, hconn, hn⟩)
  have herase : (sig.erase it.node).connectedSlots = pre ++ post := by
    have hpre := List.filter_eq_self.mpr fun conn hc => hkept conn (List.mem_append_left _ hc)
    have hpost := List.filter_eq_self.mpr fun conn hc => hkept conn (List.mem_append_right _ hc)
    simp only [SignalBase.erase, hsplit, List.filter_append, List.filter_cons, hpre, hpost]
    simp
  have hdests : (sig.erase it.node).dests = (pre ++ post).map Connection.dest := by
    rw [SignalBase.dests, herase]
  have hperm : sig.dests.Perm (it.dest :: (sig.erase it.node).dests) := by
    rw [hdests, SignalBase.dests, hsplit, List.map_append, List.map_cons, List.map_append]
    exact List.perm_middle
  rw [hperm.count_eq, hperm.mem_iff, List.count_cons_self, List.mem_cons]
  by_cases hc : c = it.dest
  · rw [hc, ← List.count_pos_iff]
    simp only [true_or, true_and, forall_const]
    omega
  · simp [hc]

/-! ### What each call does to the links -/

/-- Nothing fails unless some connection leads to a slot that is destroyed. -/
def Dangling (p : Sigslot M) (fault : Fault) : Prop :=
  ∃ s d, d ∈ p.dests s ∧ p.slots d = none ∧ fault = .deadSlots d

/-- The calls of a program, with what it knows of the state. -/
structure Usable (p : Sigslot M) (e : Event M) : Prop where
  firing : Firing p
  known : Known p
  enabled : p.enabled e = true

theorem mem_insert_iff {l : List ℕ} {a b : ℕ} : b ∈ l.insert a ↔ b ∈ l ∨ b = a := by
  rw [List.mem_insert_iff, or_comm]

theorem built_setSlots (h : Known p) {x : HasSlots} (hd : p.slots d = some x)
    (x' : Option HasSlots) : ∀ c y, (p.setSlots d x').slots c = some y → c < p.builtSlots := by
  intro c y hc
  by_cases hcd : c = d
  · exact hcd ▸ h.built d x hd
  · exact h.built c y (by simpa [setSlots, hcd] using hc)

theorem connect_relinks {m : M} (h : Usable p (.connect s d m)) :
    Ends (p.connect s d m) (Relinks p (.connect s d m)) (Dangling p) := by
  have halive := h.enabled
  simp only [enabled, Bool.and_eq_true] at halive
  refine ((p.pushBack_ends s d m).mono (fun _ hq => hq) ?_).bind ?_
  · rintro _ ⟨-, hs⟩
    simp [hs] at halive
  · rintro _ ⟨sig, hs, rfl⟩
    refine (signalConnect_ends _ d s).mono ?_ ?_
    · rintro _ ⟨x, hx, rfl⟩
      have hx : p.slots d = some x := hx
      refine ⟨fun t c => ?_, fun t c => ?_, built_setSlots h.known hx _⟩
      · rw [dests_setSlots, dests_setSignal]
        split_ifs with hts
        · subst hts
          rw [mem_dests_push, dests_eq hs]
          simp [unlinks, links]
        · change c ∈ p.dests t ↔ _
          simp [unlinks, links, hts]
      · rw [senders_setSlots]
        split_ifs with hcd
        · subst hcd
          rw [mem_insert_iff, senders_eq hx]
          simp [unlinks, links]
        · change t ∈ p.senders c ↔ _
          simp [unlinks, links, hcd]
    · rintro _ ⟨-, hd⟩
      have hd : p.slots d = none := hd
      simp [hd] at halive

theorem disconnect_relinks (h : Usable p (.disconnect s d)) :
    Ends (p.disconnect s d) (Relinks p (.disconnect s d)) (Dangling p) := by
  have halive := h.enabled
  simp only [enabled, Bool.and_eq_true] at halive
  refine ((p.aliveSignal_ends s).mono (fun _ hs => hs) ?_).bind fun sig hs => ?_
  · rintro _ ⟨-, hs⟩
    simp [hs] at halive
  · have hsound := h.firing.walkable s sig hs
    cases hfind : sig.connectedSlots.find? (·.dest = d) with
    | none =>
      have hnone : d ∉ p.dests s := by
        rw [dests_eq hs, SignalBase.dests, List.mem_map]
        rintro ⟨conn, hconn, hd⟩
        exact absurd hd (by simpa using List.find?_eq_none.mp hfind conn hconn)
      refine ends_pure.mpr ⟨fun t c => ?_, fun t c => ?_, h.known.built⟩
      · simp only [unlinks, links, or_false, iff_self_and]
        rintro hc ⟨rfl, rfl⟩
        exact absurd hc hnone
      · simp only [unlinks, links, or_false, iff_self_and]
        rintro hc ⟨rfl, rfl⟩
        exact hnone (h.known.known _ _ hc)
    | some it =>
      have hit := List.mem_of_find?_eq_some hfind
      obtain rfl : it.dest = d := by simpa using List.find?_some hfind
      refine (signalDisconnect_ends _ it.dest s).mono ?_ ?_
      · rintro _ ⟨x, hx, rfl⟩
        have hx : p.slots it.dest = some x := hx
        refine ⟨fun t c => ?_, fun t c => ?_, built_setSlots h.known hx _⟩
        · rw [dests_setSlots, dests_setSignal]
          split_ifs with hts
          · subst hts
            rw [mem_dests_erase hsound hit, dests_eq hs]
            simp [unlinks, links, leaves, dests_eq hs]
          · simp [unlinks, links, hts]
        · rw [senders_setSlots]
          split_ifs with hcd
          · subst hcd
            simp [unlinks, links, senders_eq hx]
          · simp [unlinks, links, hcd]
      · rintro _ ⟨-, hd⟩
        have hd : p.slots it.dest = none := hd
        simp [hd] at halive

/-- The loop of `disconnect_all` tells each slot that is connected to the signal. -/
theorem signalDisconnect_loop (h : Known p) {sig : SignalBase M} (hs : p.signals s = some sig) :
    Ends (sig.connectedSlots.foldlM (fun p it => p.signalDisconnect it.dest s) p)
      (fun q => q.signals = p.signals ∧ (∀ d x, q.slots d = some x → d < q.builtSlots) ∧
        ∀ t c, t ∈ q.senders c ↔ t ∈ p.senders c ∧ ¬ (t = s ∧ c ∈ sig.dests)) (Dangling p) := by
  refine Ends.mono (Ends.foldlM (I := fun its q => q.signals = p.signals ∧
    q.builtSlots = p.builtSlots ∧ (∀ c, (q.slots c).isSome = (p.slots c).isSome) ∧
    ∃ done, sig.connectedSlots = done ++ its ∧
      ∀ t c, t ∈ q.senders c ↔ t ∈ p.senders c ∧ ¬ (t = s ∧ c ∈ done.map Connection.dest))
    ?_ ⟨rfl, rfl, fun _ => rfl, [], rfl, by simp⟩) ?_ fun _ hf => hf
  · rintro it its q ⟨hsignals, hbuilt, hslots, done, hdone, hsenders⟩
    refine (q.signalDisconnect_ends it.dest s).mono ?_ ?_
    · rintro _ ⟨x, hx, rfl⟩
      refine ⟨hsignals, hbuilt, fun c => ?_, done ++ [it], by simp [hdone], fun t c => ?_⟩
      · rw [← hslots c]
        by_cases hc : c = it.dest
        · subst hc
          simp [setSlots, hx]
        · simp [setSlots, hc]
      · have hsender := hsenders t c
        rw [senders_setSlots]
        split_ifs with hc
        · subst hc
          rw [senders_eq hx] at hsender
          simp only [List.mem_filter, hsender]
          simp
          tauto
        · simpa [hc] using hsender
    · rintro _ ⟨rfl, hd⟩
      refine ⟨s, it.dest, ?_, ?_, rfl⟩
      · rw [dests_eq hs, SignalBase.dests, hdone]
        simp
      · have hnone := hslots it.dest
        rw [hd] at hnone
        simpa using hnone.symm
  · rintro q ⟨hsignals, hbuilt, hslots, done, hdone, hsenders⟩
    rw [List.append_nil] at hdone
    refine ⟨hsignals, fun d x hd => ?_, fun t c => ?_⟩
    · obtain ⟨y, hy⟩ := Option.isSome_iff_exists.mp (by rw [← hslots d, hd]; rfl)
      exact hbuilt ▸ h.built d y hy
    · rw [hsenders, SignalBase.dests, hdone]

theorem disconnectAll_links (h : Known p) {sig : SignalBase M} (hs : p.signals s = some sig) :
    Ends (p.disconnectAll s) (fun q => (∀ t, q.dests t = if t = s then [] else p.dests t) ∧
      (∀ t c, t ∈ q.senders c ↔ t ∈ p.senders c ∧ t ≠ s) ∧
      ∀ d x, q.slots d = some x → d < q.builtSlots) (Dangling p) := by
  have halive : Ends (p.aliveSignal s) (fun sig' => sig = sig') (Dangling p) := by
    simp [aliveSignal, hs]
  refine halive.bind ?_
  rintro _ rfl
  refine (signalDisconnect_loop h hs).bind ?_
  rintro q ⟨hsignals, hsenders⟩
  refine ends_pure.mpr ⟨fun t => ?_, fun t c => ?_, hsenders.1⟩
  · rw [dests_setSignal]
    simp [dests, hsignals, SignalBase.dests]
  · rw [senders_setSignal, hsenders.2]
    refine and_congr_right fun ht => ?_
    constructor
    · rintro hno rfl
      exact hno ⟨rfl, dests_eq hs ▸ h.known t c ht⟩
    · rintro hne ⟨rfl, -⟩
      exact hne rfl

theorem disconnectAll_relinks {e : Event M} (h : Known p) (hs : (p.signals s).isSome = true)
    (hunlinks : ∀ t c, unlinks e t c ↔ t = s) (hleaves : ∀ t c, ¬ p.leaves e t c)
    (hlinks : ∀ t c, ¬ p.links e t c) : Ends (p.disconnectAll s) (Relinks p e) (Dangling p) := by
  obtain ⟨sig, hs⟩ := Option.isSome_iff_exists.mp hs
  refine (disconnectAll_links h hs).mono ?_ fun _ hf => hf
  rintro q ⟨hdests, hsenders, hbuilt⟩
  refine ⟨fun t c => ?_, fun t c => ?_, hbuilt⟩
  · rw [hdests]
    split_ifs with hts <;> simp [hunlinks, hleaves, hlinks, hts]
  · simp [hunlinks, hlinks, hsenders]

/-- The loop of `disconnect_all` tells each signal that the slot knows. -/
theorem slotDisconnect_loop (h : Known p) (hp : Walkable p) {x : HasSlots}
    (hd : p.slots d = some x) :
    Ends (p.slotsDisconnectAll d)
      (fun q => (∀ t c, c ∈ q.dests t ↔ c ∈ p.dests t ∧ (c = d → t ∉ p.senders d)) ∧
        (∀ t c, t ∈ q.senders c ↔ t ∈ p.senders c ∧ c ≠ d) ∧
        ∀ c y, q.slots c = some y → c < q.builtSlots) (Dangling p) := by
  have halive : Ends (p.aliveSlots d) (fun y => x = y) (Dangling p) := by
    simp [aliveSlots, hd]
  refine halive.bind ?_
  rintro _ rfl
  refine Ends.mono (Ends.foldlM (I := fun ss q => q.slots = (p.setSlots d (some {})).slots ∧
    q.builtSlots = p.builtSlots ∧ Walkable q ∧
    (∀ t, (q.signals t).isSome = (p.signals t).isSome) ∧ ∃ done, x.senders = done ++ ss ∧
      ∀ t c, c ∈ q.dests t ↔ c ∈ p.dests t ∧ (c = d → t ∉ done))
    ?_ ⟨rfl, rfl, hp, fun _ => rfl, [], rfl, by simp⟩) ?_ fun _ hf => hf
  · rintro t ss q ⟨hslots, hbuilt, hq, hsignals, done, hdone, hdests⟩
    refine (q.slotDisconnect_ends t d).mono ?_ ?_
    · rintro _ ⟨sig, hs, rfl⟩
      have hsound := (hq t sig hs).slotDisconnect d
      refine ⟨hslots, hbuilt, (quiet_setSignal hq hs hsound).walkable, fun t' => ?_, done ++ [t],
        by simp [hdone], fun t' c => ?_⟩
      · rw [← hsignals t']
        by_cases ht : t' = t
        · subst ht
          simp [setSignal, hs]
        · simp [setSignal, ht]
      · have hdest := hdests t' c
        rw [dests_setSignal]
        split_ifs with ht
        · subst ht
          rw [mem_slotDisconnect (hq t' sig hs), ← dests_eq hs, hdest]
          simp
          tauto
        · simpa [ht] using hdest
    · rintro _ ⟨-, hnone⟩
      have hmem : t ∈ p.senders d := by
        rw [senders_eq hd, hdone]
        simp
      obtain ⟨sig, hs, -⟩ := alive_of_dest (h.known t d hmem)
      have halive := hsignals t
      simp [hs, hnone] at halive
  · rintro q ⟨hslots, hbuilt, -, -, done, hdone, hdests⟩
    rw [List.append_nil] at hdone
    refine ⟨fun t c => ?_, fun t c => ?_, ?_⟩
    · rw [hdests, senders_eq hd, hdone]
    · have hsenders : q.senders c = (p.setSlots d (some {})).senders c := by
        simp only [senders, hslots]
      rw [hsenders, senders_setSlots]
      split_ifs with hc <;> simp [hc]
    · rw [hslots, hbuilt]
      exact built_setSlots h hd _

theorem slotsDisconnectAll_relinks {e : Event M} (h : Known p) (hp : Walkable p)
    (hd : (p.slots d).isSome = true) (hunlinks : ∀ t c, unlinks e t c ↔ c = d)
    (hleaves : ∀ t c, p.leaves e t c ↔ t ∉ p.senders d) (hlinks : ∀ t c, ¬ p.links e t c) :
    Ends (p.slotsDisconnectAll d) (Relinks p e) (Dangling p) := by
  obtain ⟨x, hd⟩ := Option.isSome_iff_exists.mp hd
  refine (slotDisconnect_loop h hp hd).mono ?_ fun _ hf => hf
  rintro q ⟨hdests, hsenders, hbuilt⟩
  refine ⟨fun t c => ?_, fun t c => ?_, hbuilt⟩
  · simp [hunlinks, hleaves, hlinks, hdests]
  · simp [hunlinks, hlinks, hsenders]

theorem dests_newSignal (h : Firing p) (t : ℕ) : p.newSignal.dests t = p.dests t := by
  have hnew : p.dests p.builtSignals = [] := by
    cases hn : p.signals p.builtSignals with
    | none => simp [dests, hn]
    | some sig => exact absurd (h.alive _ sig hn) (Nat.lt_irrefl _)
  rw [newSignal, dests_setSignal]
  split_ifs with ht
  · simp [ht, hnew, SignalBase.dests]
  · rfl

theorem senders_newSlots (h : Known p) (c : ℕ) : p.newSlots.senders c = p.senders c := by
  have hnew : p.senders p.builtSlots = [] := by
    cases hn : p.slots p.builtSlots with
    | none => simp [senders, hn]
    | some x => exact absurd (h.built _ x hn) (Nat.lt_irrefl _)
  rw [newSlots, senders_setSlots]
  split_ifs with hc
  · simp [hc, hnew]
  · rfl

theorem built_newSlots (h : Known p) :
    ∀ c x, p.newSlots.slots c = some x → c < p.newSlots.builtSlots := by
  intro c x hc
  change c < p.builtSlots + 1
  by_cases hcn : c = p.builtSlots
  · omega
  · exact (h.built c x (by simpa [newSlots, setSlots, hcn] using hc)).trans (Nat.lt_succ_self _)

theorem copySignal_relinks (h : Usable p (.copySignal s)) :
    Ends (p.copySignal s) (Relinks p (.copySignal s)) (Dangling p) := by
  obtain ⟨sig, hs⟩ := Option.isSome_iff_exists.mp h.enabled
  have halive : Ends (p.aliveSignal s) (fun sig' => sig = sig') (Dangling p) := by
    simp [aliveSignal, hs]
  refine halive.bind ?_
  rintro _ rfl
  refine Ends.mono (Ends.foldlM (I := fun its q => q.builtSlots = p.builtSlots ∧
    (∀ c, (q.slots c).isSome = (p.slots c).isSome) ∧
    (q.signals p.builtSignals).isSome = true ∧ ∃ done, sig.connectedSlots = done ++ its ∧
      (∀ t c, c ∈ q.dests t ↔
        c ∈ p.dests t ∨ t = p.builtSignals ∧ c ∈ done.map Connection.dest) ∧
      ∀ t c, t ∈ q.senders c ↔
        t ∈ p.senders c ∨ t = p.builtSignals ∧ c ∈ done.map Connection.dest)
    ?_ ⟨rfl, fun _ => rfl, ?_, [], rfl, fun t c => ?_, fun t c => ?_⟩) ?_ fun _ hf => hf
  · rintro it its q ⟨hbuilt, hslots, hsignal, done, hdone, hdests, hsenders⟩
    refine ((q.signalConnect_ends it.dest p.builtSignals).mono (fun _ hr => hr) ?_).bind ?_
    · rintro _ ⟨rfl, hd⟩
      have hnone := hslots it.dest
      refine ⟨s, it.dest, ?_, ?_, rfl⟩
      · rw [dests_eq hs, SignalBase.dests, hdone]
        simp
      · rw [hd] at hnone
        simpa using hnone.symm
    · rintro _ ⟨x, hx, rfl⟩
      refine (pushBack_ends _ p.builtSignals it.dest it.method).mono ?_ ?_
      · rintro _ ⟨sig', hs', rfl⟩
        have hs' : q.signals p.builtSignals = some sig' := hs'
        refine ⟨hbuilt, fun c => ?_, by simp [setSignal], done ++ [it], by simp [hdone],
          fun t c => ?_, fun t c => ?_⟩
        · rw [← hslots c]
          by_cases hc : c = it.dest
          · subst hc
            simp [setSlots, setSignal, hx]
          · simp [setSlots, setSignal, hc]
        · have hdest := hdests t c
          rw [dests_setSignal]
          split_ifs with ht
          · subst ht
            rw [mem_dests_push, ← dests_eq hs', hdest]
            simp only [true_and, List.map_append, List.map_cons, List.map_nil, List.mem_append,
              List.mem_singleton, or_assoc]
          · change c ∈ q.dests t ↔ _
            simpa [ht] using hdest
        · have hsender := hsenders t c
          change t ∈ (q.setSlots it.dest _).senders c ↔ _
          rw [senders_setSlots]
          split_ifs with hc
          · subst hc
            rw [mem_insert_iff, ← senders_eq hx, hsender]
            simp
            tauto
          · rw [hsender]
            simp [hc]
      · rintro _ ⟨-, hnone⟩
        have hnone : q.signals p.builtSignals = none := hnone
        simp [hnone] at hsignal
  · simp [newSignal, setSignal]
  · simp [dests_newSignal h.firing]
  · change t ∈ p.senders c ↔ _
    simp
  · rintro q ⟨hbuilt, hslots, -, done, hdone, hdests, hsenders⟩
    rw [List.append_nil] at hdone
    have hmem (c : ℕ) : c ∈ done.map Connection.dest ↔ c ∈ p.dests s := by
      rw [dests_eq hs, SignalBase.dests, hdone]
    refine ⟨fun t c => ?_, fun t c => ?_, fun d x hd => ?_⟩
    · simp [hdests, unlinks, links, ← hmem]
    · simp [hsenders, unlinks, links, ← hmem]
    · obtain ⟨y, hy⟩ := Option.isSome_iff_exists.mp (by rw [← hslots d, hd]; rfl)
      exact hbuilt ▸ h.known.built d y hy

theorem slotDuplicate_links {sig : SignalBase M} (hs : p.signals s = some sig) (d n : ℕ) :
    Ends (p.slotDuplicate s d n) (fun q => q.slots = p.slots ∧ q.builtSlots = p.builtSlots ∧
      (∀ t, (q.signals t).isSome = (p.signals t).isSome) ∧
      ∀ t c, c ∈ q.dests t ↔ c ∈ p.dests t ∨ (t = s ∧ c = n ∧ d ∈ p.dests s))
      (fun _ => False) := by
  have halive : Ends (p.aliveSignal s) (fun sig' => sig = sig') (fun _ => False) := by
    simp [aliveSignal, hs]
  refine halive.bind ?_
  rintro _ rfl
  refine Ends.mono (Ends.foldlM (I := fun its q => q.slots = p.slots ∧
    q.builtSlots = p.builtSlots ∧ (∀ t, (q.signals t).isSome = (p.signals t).isSome) ∧
    ∃ done, sig.connectedSlots.filter (·.dest = d) = done ++ its ∧
      ∀ t c, c ∈ q.dests t ↔ c ∈ p.dests t ∨ (t = s ∧ c = n ∧ done ≠ []))
    ?_ ⟨rfl, rfl, fun _ => rfl, [], rfl, by simp⟩) ?_ fun _ hf => hf
  · rintro it its q ⟨hslots, hbuilt, hsignals, done, hdone, hdests⟩
    refine (q.pushBack_ends s n it.method).mono ?_ ?_
    · rintro _ ⟨sig', hs', rfl⟩
      refine ⟨hslots, hbuilt, fun t => ?_, done ++ [it], by simp [hdone], fun t c => ?_⟩
      · rw [← hsignals t]
        by_cases ht : t = s
        · subst ht
          simp [setSignal, hs']
        · simp [setSignal, ht]
      · have hdest := hdests t c
        rw [dests_setSignal]
        split_ifs with ht
        · subst ht
          rw [mem_dests_push, ← dests_eq hs', hdest]
          simp only [true_and, ne_eq, List.append_eq_nil_iff, List.cons_ne_self, and_false,
            not_false_eq_true, and_true]
          tauto
        · change c ∈ q.dests t ↔ _
          simpa [ht] using hdest
    · rintro _ ⟨-, hnone⟩
      have halive := hsignals s
      simp [hs, hnone] at halive
  · rintro q ⟨hslots, hbuilt, hsignals, done, hdone, hdests⟩
    rw [List.append_nil] at hdone
    refine ⟨hslots, hbuilt, hsignals, fun t c => ?_⟩
    have hany : done ≠ [] ↔ d ∈ p.dests s := by
      rw [← hdone, dests_eq hs, SignalBase.dests, List.mem_map, ne_eq, List.filter_eq_nil_iff]
      simp
    rw [hdests, hany]

theorem copySlots_relinks (h : Usable p (.copySlots d)) :
    Ends (p.copySlots d) (Relinks p (.copySlots d)) (Dangling p) := by
  obtain ⟨x, hd⟩ := Option.isSome_iff_exists.mp h.enabled
  have halive : Ends (p.aliveSlots d) (fun y => x = y) (Dangling p) := by
    simp [aliveSlots, hd]
  refine halive.bind ?_
  rintro _ rfl
  have hknown {t : ℕ} (ht : t ∈ x.senders) : d ∈ p.dests t :=
    h.known.known t d (senders_eq hd ▸ ht)
  refine Ends.mono (Ends.foldlM (I := fun ss q => q.builtSlots = p.builtSlots + 1 ∧
    (∀ c y, q.slots c = some y → c < q.builtSlots) ∧ (q.slots p.builtSlots).isSome = true ∧
    (∀ t, (q.signals t).isSome = (p.signals t).isSome) ∧ ∃ done, x.senders = done ++ ss ∧
      (∀ t c, c ∈ q.dests t ↔ c ∈ p.dests t ∨ c = p.builtSlots ∧ t ∈ done) ∧
      ∀ t c, t ∈ q.senders c ↔ t ∈ p.senders c ∨ c = p.builtSlots ∧ t ∈ done)
    ?_ ⟨rfl, built_newSlots h.known, ?_, fun _ => rfl, [], rfl, fun t c => ?_, fun t c => ?_⟩)
    ?_ fun _ hf => hf
  · rintro t ss q ⟨hbuilt, hlow, hslots, hsignals, done, hdone, hdests, hsenders⟩
    have hdt : d ∈ p.dests t := hknown (by simp [hdone])
    obtain ⟨sig, hs, -⟩ := alive_of_dest hdt
    obtain ⟨sig', hs'⟩ := Option.isSome_iff_exists.mp (by rw [hsignals t, hs]; rfl)
    refine ((q.slotDuplicate_links hs' d p.builtSlots).mono (fun _ hr => hr)
      fun _ hf => hf.elim).bind ?_
    rintro r ⟨hrslots, hrbuilt, hrsignals, hrdests⟩
    refine (r.signalConnect_ends p.builtSlots t).mono ?_ ?_
    · rintro _ ⟨y, hy, rfl⟩
      refine ⟨hrbuilt.trans hbuilt, fun c z hz => ?_, by simp [setSlots], fun t' =>
        (hrsignals t').trans (hsignals t'), done ++ [t], by simp [hdone], fun t' c => ?_,
        fun t' c => ?_⟩
      · change c < r.builtSlots
        by_cases hc : c = p.builtSlots
        · omega
        · exact hrbuilt ▸ hlow c z (by simpa [setSlots, hc, hrslots] using hz)
      · rw [dests_setSlots, hrdests, hdests, hdests]
        simp only [hdt, true_or, and_true, List.mem_append, List.mem_singleton]
        tauto
      · have hsender : t' ∈ r.senders c ↔ t' ∈ q.senders c := by simp only [senders, hrslots]
        rw [senders_setSlots]
        split_ifs with hc
        · subst hc
          rw [mem_insert_iff, ← senders_eq hy, hsender, hsenders]
          simp only [true_and, List.mem_append, List.mem_singleton, or_assoc]
        · simp [hsender, hsenders, hc]
    · rintro _ ⟨-, hnone⟩
      rw [hrslots] at hnone
      simp [hnone] at hslots
  · simp [newSlots, setSlots]
  · change c ∈ p.dests t ↔ _
    simp
  · simp [senders_newSlots h.known]
  · rintro q ⟨-, hlow, -, -, done, hdone, hdests, hsenders⟩
    rw [List.append_nil] at hdone
    have hmem (t : ℕ) : t ∈ done ↔ t ∈ p.senders d := by rw [senders_eq hd, hdone]
    refine ⟨fun t c => ?_, fun t c => ?_, hlow⟩
    · simp [hdests, unlinks, links, hmem]
    · simp [hsenders, unlinks, links, hmem]

/-- Each call does to the two sides what the set of links says, but for what it leaves. -/
theorem apply_relinks {e : Event M} (h : Usable p e) (he : e.fires = false) :
    Ends (p.apply e) (Relinks p e) (Dangling p) := by
  cases e with
  | newSignal =>
    refine Fallible.ends_ok.mpr ⟨fun t c => ?_, fun t c => ?_, h.known.built⟩
    · simp [dests_newSignal h.firing, unlinks, links]
    · change t ∈ p.senders c ↔ _
      simp [unlinks, links]
  | newSlots =>
    refine Fallible.ends_ok.mpr ⟨fun t c => ?_, fun t c => ?_, built_newSlots h.known⟩
    · change c ∈ p.dests t ↔ _
      simp [unlinks, links]
    · simp [senders_newSlots h.known, unlinks, links]
  | copySignal s => exact copySignal_relinks h
  | copySlots d => exact copySlots_relinks h
  | connect s d m => exact connect_relinks h
  | disconnect s d => exact disconnect_relinks h
  | disconnectAll s =>
    exact disconnectAll_relinks h.known h.enabled (fun _ _ => Iff.rfl) (fun _ _ => id) fun _ _ => id
  | slotsDisconnectAll d =>
    exact slotsDisconnectAll_relinks h.known h.firing.walkable h.enabled (fun _ _ => Iff.rfl)
      (fun _ _ => Iff.rfl) fun _ _ => id
  | destroySignal s =>
    refine (disconnectAll_relinks h.known h.enabled (fun _ _ => Iff.rfl) (fun _ _ => id)
      fun _ _ => id).bind fun q hq => ends_pure.mpr ⟨fun t c => ?_, hq.senders, hq.built⟩
    rw [dests_destroyed]
    split_ifs with ht
    · simp [unlinks, leaves, links, ht]
    · exact hq.dests t c
  | destroySlots d =>
    refine (slotsDisconnectAll_relinks h.known h.firing.walkable h.enabled (fun _ _ => Iff.rfl)
      (fun _ _ => Iff.rfl) fun _ _ => id).bind fun q hq =>
        ends_pure.mpr ⟨hq.dests, fun t c => ?_, fun c y hc => ?_⟩
    · rw [senders_destroyed]
      split_ifs with hc
      · simp [unlinks, links, hc]
      · exact hq.senders t c
    · by_cases hcd : c = d
      · simp [setSlots, hcd] at hc
      · exact hq.built c y (by simpa [setSlots, hcd] using hc)
  | emit s | turn => cases he

/-! ### Runs -/

/-- Firing changes no links. -/
theorem fires_links {e : Event M} (he : e.fires = true) (hq : p.apply e = .ok q)
    (hp : Walkable p) : (∀ t, q.dests t = p.dests t) ∧ q.slots = p.slots ∧
      q.builtSlots = p.builtSlots := by
  have hcursor (s : ℕ) (sig : SignalBase M) (hs : p.signals s = some sig) (cursor : Option ℕ)
      (t : ℕ) : (p.setSignal s (some { sig with currentIterator := cursor })).dests t =
        p.dests t := by
    rw [dests_setSignal]
    split_ifs with ht
    · rw [ht, dests_eq hs]
      rfl
    · rfl
  cases e with
  | emit s =>
    obtain ⟨sig, hs, rfl⟩ := (p.emit_ends s).1 q hq
    exact ⟨hcursor s sig hs _, rfl, rfl⟩
  | turn =>
    cases hf : p.firing with
    | nil =>
      obtain rfl : p = q := by simpa [apply, turn, hf] using hq
      exact ⟨fun _ => rfl, rfl, rfl⟩
    | cons e rest =>
      cases (turn_ends hp hf).1 q hq with
      | returns hs hend => exact ⟨fun _ => rfl, rfl, rfl⟩
      | calls hs hcur hconn hdest => exact ⟨hcursor _ _ hs _, rfl, rfl⟩
  | newSignal | newSlots | copySignal s | copySlots d | connect s d m | disconnect s d
  | disconnectAll s | slotsDisconnectAll d | destroySignal s | destroySlots d => cases he

theorem Relinks.known {e : Event M} (h : Known p) (hq : Relinks p e q) : Known q := by
  refine ⟨fun t c ht => ?_, hq.built⟩
  rcases (hq.senders t c).mp ht with ⟨ht, hno⟩ | hlink
  · exact (hq.dests t c).mpr (.inl ⟨h.known t c ht, fun hun => absurd hun hno⟩)
  · exact (hq.dests t c).mpr (.inr hlink)

theorem known_apply {e : Event M} (h : Usable p e) (hq : p.apply e = .ok q) : Known q := by
  cases he : e.fires with
  | false => exact ((apply_relinks h he).1 q hq).known h.known
  | true =>
    obtain ⟨hdests, hslots, hbuilt⟩ := fires_links he hq h.firing.walkable
    refine ⟨fun t c ht => ?_, ?_⟩
    · rw [hdests]
      exact h.known.known t c (by simpa only [senders, hslots] using ht)
    · rw [hslots, hbuilt]
      exact h.known.built

theorem known_start : Known ({} : Sigslot M) := ⟨by simp [senders], by simp⟩

theorem known_reachable (h : system.Reachable p) : Firing p ∧ Known p := by
  apply h.invariant (I := fun p : Sigslot M => Firing p ∧ Known p)
  · rintro _ rfl
    exact ⟨firing_start, known_start⟩
  · intro a e b he ha
    obtain ⟨-, henabled, happly | ⟨fault, happly, rfl⟩⟩ := step_applies he
    · exact ⟨((firing_apply ha.1).1 b happly).1, known_apply ⟨ha.1, ha.2, henabled⟩ happly⟩
    · exact ⟨ha.1.failed fault, ha.2.known, ha.2.built⟩

/-- A slot that is disconnected has one connection to the signal at most. -/
def Single (p : Sigslot M) : Event M → Prop
  | .disconnect s d => (p.dests s).count d ≤ 1
  | _ => True

theorem linked_apply {e : Event M} (h : Usable p e) (hl : Linked p) (hq : p.apply e = .ok q) :
    Linked q ↔ Single p e := by
  cases he : e.fires with
  | true =>
    obtain ⟨hdests, hslots, -⟩ := fires_links he hq h.firing.walkable
    refine iff_of_true (fun t c hc => ?_) ?_
    · have ht := hl t c (hdests t ▸ hc)
      simpa only [senders, hslots] using ht
    · cases e <;> trivial
  | false =>
    have hr := (apply_relinks h he).1 q hq
    constructor
    · intro hlq
      cases e with
      | disconnect s d =>
        by_contra hmany
        have hcount : 2 ≤ (p.dests s).count d := Nat.not_le.mp hmany
        have hd : d ∈ p.dests s := List.count_pos_iff.mp (by omega)
        have hkept : d ∈ q.dests s := (hr.dests s d).mpr (.inl ⟨hd, fun _ => hcount⟩)
        rcases (hr.senders s d).mp (hlq s d hkept) with ⟨-, hno⟩ | hlink
        · exact hno ⟨rfl, rfl⟩
        · exact hlink
      | _ => trivial
    · intro hsingle t c hc
      rcases (hr.dests t c).mp hc with ⟨hc, hkept⟩ | hlink
      · have ht := hl t c hc
        refine (hr.senders t c).mpr (.inl ⟨ht, fun hun => ?_⟩)
        have hleft := hkept hun
        cases e with
        | disconnect s d => exact absurd hleft (Nat.not_le.mpr (Nat.lt_succ_of_le hsingle))
        | slotsDisconnectAll d | destroySlots d =>
          obtain rfl : c = d := hun
          exact hleft ht
        | _ => exact hleft
      · exact (hr.senders t c).mpr (.inr hlink)

theorem Linked.not_dangling (h : Linked p) {fault : Fault} : ¬ Dangling p fault := by
  rintro ⟨s, d, hd, hnone, -⟩
  obtain ⟨x, hx, -⟩ := alive_of_sender (h s d hd)
  simp [hnone] at hx

theorem linked_step {e : Event M} (he : p.step e = some q) (hf : Firing p) (hk : Known p)
    (hl : Linked p) : Linked q ↔ Single p e := by
  obtain ⟨-, henabled, happly | ⟨fault, happly, rfl⟩⟩ := step_applies he
  · exact linked_apply ⟨hf, hk, henabled⟩ hl happly
  · refine iff_of_true hl ?_
    cases hfires : e.fires with
    | true => cases e <;> trivial
    | false =>
      have hdangling := (apply_relinks ⟨hf, hk, henabled⟩ hfires).2 fault happly
      exact absurd hdangling hl.not_dangling

/-- In a run, the connections and the senders are the same links throughout if and only
if no slot is disconnected while it has two connections to the signal. -/
theorem linked_run (es : List (Event M)) :
    (∀ q, system.Visits {} es q → Known q ∧ Linked q) ↔
      ∀ a e b, system.Takes {} es a e b → Single a e := by
  have hstart : system.Reachable ({} : Sigslot M) := .of_start rfl
  refine EventSystem.visits_iff_takes (I := fun _ => True) (Q := fun p => Firing p ∧ Known p)
    ?_ ?_ (fun q hq => known_reachable (hstart.visits hq)) trivial ?_
  · intro a e b he ha hb _ hl hsingle
    exact ⟨trivial, hb.2, (linked_step he ha.1 ha.2 hl.2).mpr hsingle⟩
  · intro a e b he ha _ _ hl hmany hlb
    exact hmany ((linked_step he ha.1 ha.2 hl.2).mp hlb.2)
  · refine ⟨known_start, fun s d hd => ?_⟩
    simp [dests] at hd

/-- A slot that is connected twice, disconnected once and destroyed. -/
example : ((system.exec ({} : Sigslot String) [.newSignal, .newSlots, .connect 0 0 "a",
    .connect 0 0 "b", .disconnect 0 0, .destroySlots 0, .emit 0, .turn]).map Sigslot.fault) =
      some (some (.deadSlots 0)) := rfl

theorem Linked.slot_alive (h : Linked p) {sig : SignalBase M} (hs : p.signals s = some sig)
    {conn : Connection M} (hconn : conn ∈ sig.connectedSlots) :
    (p.slots conn.dest).isSome = true := by
  have hd : conn.dest ∈ p.dests s := by
    rw [dests_eq hs]
    exact List.mem_map_of_mem hconn
  obtain ⟨x, hx, -⟩ := alive_of_sender (h s conn.dest hd)
  simp [hx]

/-- Between linked objects only `emit` can fail, in a signal that is gone. -/
theorem linked_fails {e : Event M} (h : Usable p e) (hl : Linked p) {fault : Fault}
    (hfail : p.apply e = .error fault) : ∃ e rest, p.firing = e :: rest ∧
      fault = .deadSignal e.signal ∧ p.signals e.signal = none := by
  cases hfires : e.fires with
  | false => exact absurd ((apply_relinks h hfires).2 fault hfail) hl.not_dangling
  | true =>
    cases e with
    | emit s =>
      have hs := ((p.emit_ends s).2 fault hfail).2
      have halive := h.enabled
      simp [enabled, hs] at halive
    | turn =>
      cases hf : p.firing with
      | nil => simp [apply, turn, hf] at hfail
      | cons e rest =>
        cases (turn_ends h.firing.walkable hf).2 fault hfail with
        | deadSignal hs => exact ⟨e, rest, rfl, rfl, hs⟩
        | deadSlots hs hconn hdest =>
          have halive := hl.slot_alive hs hconn
          simp [hdest] at halive
    | newSignal | newSlots | copySignal s | copySlots d | connect s d m | disconnect s d
    | disconnectAll s | slotsDisconnectAll d | destroySignal s | destroySlots d => cases hfires

/-- What a program has to do with as long as it disconnects no slot in part. -/
structure Sane (p : Sigslot M) : Prop where
  firing : Firing p
  known : Known p
  linked : Linked p

theorem sane_start : Sane ({} : Sigslot M) :=
  ⟨firing_start, known_start, by simp [Linked, dests]⟩

theorem Sane.applied {e : Event M} (h : Sane p) (he : p.enabled e = true) (hs : Single p e)
    (hq : p.apply e = .ok q) : Sane q :=
  ⟨((firing_apply h.firing).1 q hq).1, known_apply ⟨h.firing, h.known, he⟩ hq,
    (linked_apply ⟨h.firing, h.known, he⟩ h.linked hq).mpr hs⟩

/-- A call that fires nothing succeeds. -/
theorem Sane.call {e : Event M} (h : Sane p) (hfires : e.fires = false)
    (he : p.enabled e = true) (hs : Single p e) :
    ∃ q, p.apply e = .ok q ∧ Sane q ∧ Quiet p q ∧ Relinks p e q := by
  have hrelinks := apply_relinks ⟨h.firing, h.known, he⟩ hfires
  cases hq : p.apply e with
  | ok q => exact ⟨q, rfl, h.applied he hs hq, (apply_calm h.firing.walkable hfires).1 q hq,
      hrelinks.1 q hq⟩
  | error fault => exact absurd (hrelinks.2 fault hq) h.linked.not_dangling

/-- In such a run, each connection leads to a slot that is there, and nothing that is
destroyed is touched but a signal that was destroyed while it fired, when its `emit`
goes on. -/
theorem linked_safe (es : List (Event M))
    (h : ∀ a e b, system.Takes {} es a e b → Single a e) :
    ∀ q, system.Visits {} es q →
      (∀ s sig, q.signals s = some sig → ∀ conn ∈ sig.connectedSlots,
        (q.slots conn.dest).isSome = true) ∧
      ∀ fault, q.fault = some fault → ∃ e rest, q.firing = e :: rest ∧
        fault = .deadSignal e.signal ∧ q.signals e.signal = none := by
  have hrun := EventSystem.takes_invariant (S := system (M := M)) (G := Single)
    (I := fun q => (Firing q ∧ Known q) ∧ Linked q ∧ ∀ fault, q.fault = some fault →
      ∃ e rest, q.firing = e :: rest ∧ fault = .deadSignal e.signal ∧ q.signals e.signal = none)
    ?_ ⟨⟨firing_start, known_start⟩, by simp [Linked, dests], by simp⟩ h
  · intro q hq
    obtain ⟨-, hlinked, hfault⟩ := hrun q hq
    exact ⟨fun s sig hs conn hconn => hlinked.slot_alive hs hconn, hfault⟩
  · rintro a e b he ⟨⟨hf, hk⟩, hl, -⟩ hsingle
    have hlb := (linked_step he hf hk hl).mpr hsingle
    obtain ⟨hnone, henabled, happly | ⟨fault, happly, rfl⟩⟩ := step_applies he
    · obtain ⟨hfb, hkept⟩ := (firing_apply hf).1 b happly
      refine ⟨⟨hfb, known_apply ⟨hf, hk, henabled⟩ happly⟩, hlb, ?_⟩
      simp [hkept, hnone]
    · refine ⟨⟨hf.failed fault, ⟨hk.known, hk.built⟩⟩, hlb, ?_⟩
      rintro _ ⟨rfl⟩
      exact linked_fails ⟨hf, hk, henabled⟩ hl happly

/-- A signal is destroyed by a slot that it calls. -/
def destroyedFiring : List (Event String) :=
  [.newSignal, .newSlots, .connect 0 0 "a", .connect 0 0 "b", .copySlots 0, .destroySlots 0,
    .emit 0, .turn, .destroySignal 0, .turn]

theorem linked_safe_destroyed : ∃ q : Sigslot String,
    system.exec {} destroyedFiring = some q ∧ q.fault = some (.deadSignal 0) ∧
    (∀ s sig, q.signals s = some sig → ∀ conn ∈ sig.connectedSlots,
      (q.slots conn.dest).isSome = true) ∧
    ∀ fault, q.fault = some fault → ∃ e rest, q.firing = e :: rest ∧
      fault = .deadSignal e.signal ∧ q.signals e.signal = none := by
  refine ⟨_, rfl, rfl, linked_safe destroyedFiring ?_ _ ⟨_, List.prefix_rfl, rfl⟩⟩
  intro a e b hab
  have hmem := hab.mem
  cases e with
  | disconnect s d => simp [destroyedFiring] at hmem
  | _ => trivial

end WebrtcNativeDemo.Sigslot
