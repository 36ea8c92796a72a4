import Mathlib.Data.List.Basic
import Mathlib.Data.List.Infix

/-!
# Event systems

A deterministic partial step function, driven by a list of events that some
environment chooses. An event that is not enabled stops the run, so every list
of events has a longest part that is executed. `Visits` and `Takes` speak about
that part: the states a run passes through and the steps it takes.

The rules are the ones a safety argument needs: an inductive invariant holds of
every reachable state, a guard met by every step keeps a property along one run,
and, where each guard violation breaks the property, the two are equivalent.
-/

universe u v w

structure EventSystem (σ : Type u) (ε : Type v) where
  start : σ → Prop
  step : σ → ε → Option σ

namespace EventSystem
variable {σ : Type u} {ε : Type v} (S : EventSystem σ ε)

def exec : σ → List ε → Option σ
  | s, [] => some s
  | s, e :: es => (S.step s e).bind fun t => exec t es

def Reachable (s : σ) : Prop := ∃ s₀ es, S.start s₀ ∧ S.exec s₀ es = some s

/-- The run of `es` from `s` passes through `t` (first and last state included). -/
def Visits (s : σ) (es : List ε) (t : σ) : Prop := ∃ pre, pre <+: es ∧ S.exec s pre = some t

def visited : σ → List ε → List σ
  | s, [] => [s]
  | s, e :: es => s :: (S.step s e).elim [] fun t => visited t es

/-- The run of `es` from `s` takes the step `e` from `a` to `b`. -/
def Takes (s : σ) (es : List ε) (a : σ) (e : ε) (b : σ) : Prop :=
  ∃ pre, pre ++ [e] <+: es ∧ S.exec s pre = some a ∧ S.step a e = some b

def taken : σ → List ε → List (σ × ε × σ)
  | _, [] => []
  | s, e :: es => (S.step s e).elim [] fun t => (s, e, t) :: taken t es

/-- The system beside a record of its runs, on which no step depends. -/
def observe {γ : Type w} (S : EventSystem σ ε) (c₀ : γ) (record : γ → σ → ε → γ) :
    EventSystem (σ × γ) ε where
  start x := S.start x.1 ∧ x.2 = c₀
  step x e := (S.step x.1 e).map fun t => (t, record x.2 x.1 e)

variable {S}

@[simp] theorem exec_nil (s : σ) : S.exec s [] = some s := rfl

theorem exec_cons (s : σ) (e : ε) (es : List ε) :
    S.exec s (e :: es) = (S.step s e).bind fun t => S.exec t es := rfl

theorem exec_cons_eq_some {s u : σ} {e : ε} {es : List ε} :
    S.exec s (e :: es) = some u ↔ ∃ t, S.step s e = some t ∧ S.exec t es = some u := by
  rw [exec_cons, Option.bind_eq_some_iff]

theorem exec_append (s : σ) (es fs : List ε) :
    S.exec s (es ++ fs) = (S.exec s es).bind fun t => S.exec t fs := by
  induction es generalizing s with
  | nil => rfl
  | cons e es ih =>
    rw [List.cons_append, exec_cons, exec_cons, Option.bind_assoc]
    congr 1
    funext t
    exact ih t

theorem exec_append_eq_some {s t u : σ} {es fs : List ε} (h : S.exec s es = some t)
    (h' : S.exec t fs = some u) : S.exec s (es ++ fs) = some u := by
  rw [exec_append, h]
  exact h'

theorem exec_singleton (s : σ) (e : ε) : S.exec s [e] = S.step s e := by
  rw [exec_cons]
  cases S.step s e <;> rfl

theorem Reachable.of_start {s : σ} (h : S.start s) : S.Reachable s := ⟨s, [], h, rfl⟩

theorem Reachable.exec {s t : σ} {es : List ε} (h : S.Reachable s) (he : S.exec s es = some t) :
    S.Reachable t := by
  obtain ⟨s₀, fs, h₀, hf⟩ := h
  exact ⟨s₀, fs ++ es, h₀, exec_append_eq_some hf he⟩

theorem Reachable.step {s t : σ} {e : ε} (h : S.Reachable s) (he : S.step s e = some t) :
    S.Reachable t :=
  h.exec (by rwa [exec_singleton])

theorem exec_invariant {I : σ → Prop} (step : ∀ a e b, S.step a e = some b → I a → I b)
    {s t : σ} {es : List ε} (h : S.exec s es = some t) (hs : I s) : I t := by
  induction es generalizing s with
  | nil => exact Option.some.inj h ▸ hs
  | cons e es ih =>
    obtain ⟨u, hu, ht⟩ := exec_cons_eq_some.mp h
    exact ih ht (step s e u hu hs)

theorem Reachable.invariant {I : σ → Prop} (start : ∀ s, S.start s → I s)
    (step : ∀ a e b, S.step a e = some b → I a → I b) {s : σ} (h : S.Reachable s) : I s := by
  obtain ⟨s₀, es, h₀, he⟩ := h
  exact exec_invariant step he (start s₀ h₀)

theorem visits_nil {s t : σ} : S.Visits s [] t ↔ t = s := by
  constructor
  · rintro ⟨pre, hp, ht⟩
    rw [List.prefix_nil] at hp
    subst hp
    exact (Option.some.inj ht).symm
  · rintro rfl
    exact ⟨[], List.prefix_rfl, rfl⟩

theorem visits_cons {s t : σ} {e : ε} {es : List ε} :
    S.Visits s (e :: es) t ↔ t = s ∨ ∃ u, S.step s e = some u ∧ S.Visits u es t := by
  constructor
  · rintro ⟨pre, hp, ht⟩
    rcases pre with _ | ⟨f, pre⟩
    · exact Or.inl (Option.some.inj ht).symm
    · obtain ⟨rfl, hpre⟩ := List.cons_prefix_cons.mp hp
      obtain ⟨u, hu, hut⟩ := exec_cons_eq_some.mp ht
      exact Or.inr ⟨u, hu, pre, hpre, hut⟩
  · rintro (rfl | ⟨u, hu, pre, hp, ht⟩)
    · exact ⟨[], List.nil_prefix, rfl⟩
    · exact ⟨e :: pre, List.cons_prefix_cons.mpr ⟨rfl, hp⟩, exec_cons_eq_some.mpr ⟨u, hu, ht⟩⟩

theorem visits_start (s : σ) (es : List ε) : S.Visits s es s := ⟨[], List.nil_prefix, rfl⟩

theorem visits_iff_mem_visited {s t : σ} {es : List ε} : S.Visits s es t ↔ t ∈ S.visited s es := by
  induction es generalizing s with
  | nil => rw [visits_nil, visited, List.mem_singleton]
  | cons e es ih =>
    rw [visits_cons, visited, List.mem_cons]
    apply or_congr_right
    cases h : S.step s e with
    | none => simp
    | some u => simpa using ih

theorem forall_visits {P : σ → Prop} {s : σ} {es : List ε} :
    (∀ t, S.Visits s es t → P t) ↔ ∀ t ∈ S.visited s es, P t := by
  simp only [visits_iff_mem_visited]

theorem Reachable.visits {s t : σ} {es : List ε} (h : S.Reachable s) (ht : S.Visits s es t) :
    S.Reachable t := by
  obtain ⟨pre, -, ht⟩ := ht
  exact h.exec ht

theorem takes_nil {s a b : σ} {e : ε} : ¬ S.Takes s [] a e b := by
  rintro ⟨pre, hp, -⟩
  simp at hp

theorem takes_cons {s a b : σ} {e f : ε} {es : List ε} :
    S.Takes s (f :: es) a e b ↔
      (a = s ∧ e = f ∧ S.step s f = some b) ∨ ∃ u, S.step s f = some u ∧ S.Takes u es a e b := by
  constructor
  · rintro ⟨pre, hp, ha, hb⟩
    rcases pre with _ | ⟨g, pre⟩
    · obtain ⟨rfl, -⟩ := List.cons_prefix_cons.mp hp
      obtain rfl := Option.some.inj ha
      exact Or.inl ⟨rfl, rfl, hb⟩
    · obtain ⟨rfl, hpre⟩ := List.cons_prefix_cons.mp hp
      obtain ⟨u, hu, hua⟩ := exec_cons_eq_some.mp ha
      exact Or.inr ⟨u, hu, pre, hpre, hua, hb⟩
  · rintro (⟨rfl, rfl, hb⟩ | ⟨u, hu, pre, hp, ha, hb⟩)
    · exact ⟨[], by simp, rfl, hb⟩
    · exact ⟨f :: pre, List.cons_prefix_cons.mpr ⟨rfl, hp⟩,
        exec_cons_eq_some.mpr ⟨u, hu, ha⟩, hb⟩

theorem takes_append {s a b : σ} {e : ε} {es fs : List ε} :
    S.Takes s (es ++ fs) a e b ↔
      S.Takes s es a e b ∨ ∃ t, S.exec s es = some t ∧ S.Takes t fs a e b := by
  induction es generalizing s with
  | nil => simp [takes_nil]
  | cons f es ih =>
    rw [List.cons_append, takes_cons, takes_cons, exec_cons]
    cases h : S.step s f with
    | none => simp
    | some u => simp [ih, or_assoc]

theorem takes_iff_mem_taken {s a b : σ} {e : ε} {es : List ε} :
    S.Takes s es a e b ↔ (a, e, b) ∈ S.taken s es := by
  induction es generalizing s with
  | nil => simp [takes_nil, taken]
  | cons f es ih =>
    rw [takes_cons, taken]
    cases h : S.step s f with
    | none => simp
    | some u =>
      simp only [Option.elim_some, List.mem_cons, Prod.mk.injEq, Option.some.injEq, ← ih]
      apply or_congr
      · rw [eq_comm (a := u)]
      · simp

theorem forall_takes {G : σ → ε → Prop} {s : σ} {es : List ε} :
    (∀ a e b, S.Takes s es a e b → G a e) ↔ ∀ x ∈ S.taken s es, G x.1 x.2.1 := by
  simp only [takes_iff_mem_taken, Prod.forall]

theorem Takes.visits_left {s a b : σ} {es : List ε} {e : ε} (h : S.Takes s es a e b) :
    S.Visits s es a := by
  obtain ⟨pre, hp, ha, -⟩ := h
  exact ⟨pre, (List.prefix_append _ _).trans hp, ha⟩

theorem Takes.step {s a b : σ} {es : List ε} {e : ε} (h : S.Takes s es a e b) :
    S.step a e = some b := by
  obtain ⟨pre, -, -, hb⟩ := h
  exact hb

theorem Takes.split {s t a b : σ} {es : List ε} {e : ε} (h : S.Takes s es a e b)
    (ht : S.exec s es = some t) :
    ∃ pre post, es = pre ++ e :: post ∧ S.exec s pre = some a ∧ S.exec b post = some t := by
  obtain ⟨pre, ⟨post, rfl⟩, ha, hb⟩ := h
  refine ⟨pre, post, by simp, ha, ?_⟩
  rw [List.append_assoc, exec_append, ha] at ht
  obtain ⟨b', hb', ht⟩ := exec_cons_eq_some.mp ht
  obtain rfl := Option.some.inj (hb.symm.trans hb')
  exact ht

theorem takes_last {s a b : σ} {es : List ε} {e : ε} (h : S.exec s es = some a)
    (he : S.step a e = some b) : S.Takes s (es ++ [e]) a e b :=
  ⟨es, List.prefix_rfl, h, he⟩

theorem Takes.mem {s a b : σ} {es : List ε} {e : ε} (h : S.Takes s es a e b) : e ∈ es := by
  obtain ⟨pre, hp, -⟩ := h
  exact hp.subset (by simp)

theorem takes_invariant {I : σ → Prop} {G : σ → ε → Prop}
    (step : ∀ a e b, S.step a e = some b → I a → G a e → I b) {s : σ} {es : List ε} (hs : I s)
    (guard : ∀ a e b, S.Takes s es a e b → G a e) : ∀ t, S.Visits s es t → I t := by
  induction es generalizing s with
  | nil =>
    intro t ht
    exact visits_nil.mp ht ▸ hs
  | cons e es ih =>
    intro t ht
    rcases visits_cons.mp ht with rfl | ⟨u, hu, ht⟩
    · exact hs
    · have hG : G s e := guard s e u (takes_cons.mpr (Or.inl ⟨rfl, rfl, hu⟩))
      refine ih (step s e u hu hs hG) ?_ t ht
      intro a f b hab
      exact guard a f b (takes_cons.mpr (Or.inr ⟨u, hu, hab⟩))

theorem visits_invariant {I : σ → Prop} {s : σ} {es : List ε} (hs : I s)
    (step : ∀ a e b, e ∈ es → S.step a e = some b → I a → I b) :
    ∀ t, S.Visits s es t → I t :=
  takes_invariant (G := fun _ e => e ∈ es) (fun a e b hab ha he => step a e b he hab ha) hs
    fun _ _ _ hab => hab.mem

/-- A property of all states of a run against a guard on its steps. `Q` collects
what is known of every visited state; `I` is kept as long as the guard is met. -/
theorem visits_iff_takes {I P Q : σ → Prop} {G : σ → ε → Prop}
    (safe : ∀ a e b, S.step a e = some b → Q a → Q b → I a → P a → G a e → I b ∧ P b)
    (sharp : ∀ a e b, S.step a e = some b → Q a → Q b → I a → P a → ¬ G a e → ¬ P b)
    {s : σ} {es : List ε} (hQ : ∀ t, S.Visits s es t → Q t) (hI : I s) (hP : P s) :
    (∀ t, S.Visits s es t → P t) ↔ ∀ a e b, S.Takes s es a e b → G a e := by
  induction es generalizing s with
  | nil =>
    constructor
    · intro _ a e b h
      exact absurd h takes_nil
    · intro _ t ht
      exact visits_nil.mp ht ▸ hP
  | cons f es ih =>
    rcases hf : S.step s f with _ | u
    · constructor
      · intro _ a e b h
        rcases takes_cons.mp h with ⟨-, -, h⟩ | ⟨u, h, -⟩ <;> simp [hf] at h
      · intro _ t ht
        rcases visits_cons.mp ht with rfl | ⟨u, h, -⟩
        · exact hP
        · simp [hf] at h
    · have tail : ∀ t, S.Visits u es t → S.Visits s (f :: es) t :=
        fun t ht => visits_cons.mpr (Or.inr ⟨u, hf, ht⟩)
      have hQs : Q s := hQ s (visits_start s _)
      have hQu : Q u := hQ u (tail u (visits_start u es))
      constructor
      · intro h
        have hPu : P u := h u (tail u (visits_start u es))
        have hG : G s f := by
          by_contra hG
          exact sharp s f u hf hQs hQu hI hP hG hPu
        have hIu : I u := (safe s f u hf hQs hQu hI hP hG).1
        intro a e b hab
        rcases takes_cons.mp hab with ⟨rfl, rfl, -⟩ | ⟨v, hv, hab⟩
        · exact hG
        · obtain rfl : u = v := Option.some.inj (hf.symm.trans hv)
          exact (ih (fun t ht => hQ t (tail t ht)) hIu hPu).mp (fun t ht => h t (tail t ht)) a e b
            hab
      · intro h
        have hG : G s f := h s f u (takes_cons.mpr (Or.inl ⟨rfl, rfl, hf⟩))
        obtain ⟨hIu, hPu⟩ := safe s f u hf hQs hQu hI hP hG
        intro t ht
        rcases visits_cons.mp ht with rfl | ⟨v, hv, ht⟩
        · exact hP
        · obtain rfl : u = v := Option.some.inj (hf.symm.trans hv)
          exact (ih (fun t ht => hQ t (tail t ht)) hIu hPu).mpr
            (fun a e b hab => h a e b (takes_cons.mpr (Or.inr ⟨u, hf, hab⟩))) t ht

/-! ### Records -/

section Observe

variable {γ : Type w} {c₀ : γ} {record : γ → σ → ε → γ}

theorem observe_step {x y : σ × γ} {e : ε} :
    (S.observe c₀ record).step x e = some y ↔
      S.step x.1 e = some y.1 ∧ y.2 = record x.2 x.1 e := by
  obtain ⟨t, d⟩ := y
  simp only [observe, Option.map_eq_some_iff, Prod.mk.injEq]
  constructor
  · rintro ⟨u, hu, rfl, rfl⟩
    exact ⟨hu, rfl⟩
  · rintro ⟨ht, rfl⟩
    exact ⟨t, ht, rfl, rfl⟩

theorem Takes.observe {s a b : σ} {e : ε} {es : List ε} (h : S.Takes s es a e b) (c : γ) :
    ∃ c' d, (S.observe c₀ record).Takes (s, c) es (a, c') e (b, d) := by
  induction es generalizing s c with
  | nil => exact absurd h takes_nil
  | cons f es ih =>
    rcases takes_cons.mp h with ⟨rfl, rfl, hb⟩ | ⟨u, hu, hab⟩
    · exact ⟨c, record c a e, takes_cons.mpr (Or.inl ⟨rfl, rfl, observe_step.mpr ⟨hb, rfl⟩⟩)⟩
    · obtain ⟨c', d, htakes⟩ := ih hab (record c s f)
      exact ⟨c', d, takes_cons.mpr (Or.inr ⟨(u, record c s f),
        observe_step.mpr ⟨hu, rfl⟩, htakes⟩)⟩

end Observe

end EventSystem
