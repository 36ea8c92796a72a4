import Mathlib.Logic.Basic

/-!
# Computations that may fail

What holds of the result of a computation in `Except`, and what of its failure, with a
rule for each way to put computations together.
-/

namespace Fallible

universe u

variable {ε : Type u} {α β σ : Type u}

def Ends (x : Except ε α) (post : α → Prop) (fail : ε → Prop) : Prop :=
  (∀ a, x = .ok a → post a) ∧ ∀ e, x = .error e → fail e

variable {x : Except ε α} {f : α → Except ε β} {post post' : α → Prop} {fail fail' : ε → Prop}

@[simp] theorem ends_ok {a : α} : Ends (.ok a) post fail ↔ post a := by
  simp [Ends]

@[simp] theorem ends_pure {a : α} : Ends (pure a) post fail ↔ post a := ends_ok

@[simp] theorem ends_error {e : ε} : Ends (.error e : Except ε α) post fail ↔ fail e := by
  simp [Ends]

theorem Ends.mono (h : Ends x post fail) (hpost : ∀ a, post a → post' a)
    (hfail : ∀ e, fail e → fail' e) : Ends x post' fail' :=
  ⟨fun a ha => hpost a (h.1 a ha), fun e he => hfail e (h.2 e he)⟩

theorem Ends.bind {post : β → Prop} {mid : α → Prop} (h : Ends x mid fail)
    (hf : ∀ a, mid a → Ends (f a) post fail) : Ends (x >>= f) post fail := by
  cases x with
  | error e => exact ends_error.mpr (h.2 e rfl)
  | ok a => exact hf a (h.1 a rfl)

/-- A loop over a list keeps what holds of the elements still to come and of the state. -/
theorem Ends.foldlM {f : σ → α → Except ε σ} {I : List α → σ → Prop}
    (step : ∀ a as s, I (a :: as) s → Ends (f s a) (I as) fail) {as : List α} {s : σ}
    (h : I as s) : Ends (as.foldlM f s) (I []) fail := by
  induction as generalizing s with
  | nil => exact ends_pure.mpr h
  | cons a as ih =>
    rw [List.foldlM_cons]
    exact (step a as s h).bind fun s' hs' => ih hs'

end Fallible
