import Mathlib.Data.List.Basic

/-!
# Outstanding requests

A log of requests issued under an identifier and of answers that carry one. A request
is outstanding as long as no answer with its identifier follows it, and an answer is
effective when it meets an outstanding request: it is then the first one after it.
-/

namespace Requests

universe u
variable {κ : Type u}

inductive Entry (κ : Type u)
  | issue (k : κ)
  | answer (k : κ)
deriving DecidableEq, Repr

def Outstanding (log : List (Entry κ)) (k : κ) : Prop :=
  ∃ pre post, log = pre ++ .issue k :: post ∧ .answer k ∉ post

@[simp] theorem outstanding_nil (k : κ) : ¬ Outstanding [] k := by
  intro h
  obtain ⟨pre, post, h, -⟩ := h
  simp at h

theorem append_singleton_split {log pre post : List (Entry κ)} {e f : Entry κ}
    (h : log ++ [e] = pre ++ f :: post) :
    (e = f ∧ post = []) ∨ ∃ mid, post = mid ++ [e] ∧ log = pre ++ f :: mid := by
  rcases List.eq_nil_or_concat post with rfl | ⟨mid, g, rfl⟩
  · left
    exact ⟨List.singleton_inj.mp (List.append_inj' h rfl).2, rfl⟩
  · right
    have h' : log ++ [e] = (pre ++ f :: mid) ++ [g] := by simpa using h
    obtain ⟨hlog, he⟩ := List.append_inj' h' rfl
    obtain rfl := List.singleton_inj.mp he
    exact ⟨mid, by simp, hlog⟩

@[simp] theorem outstanding_issue {log : List (Entry κ)} {j k : κ} :
    Outstanding (log ++ [.issue j]) k ↔ Outstanding log k ∨ k = j := by
  constructor
  · intro h
    obtain ⟨pre, post, h, hpost⟩ := h
    rcases append_singleton_split h with ⟨he, -⟩ | ⟨mid, rfl, rfl⟩
    · right
      exact (Entry.issue.inj he).symm
    · left
      exact ⟨pre, mid, rfl, fun hmem => hpost (by simp [hmem])⟩
  · intro h
    rcases h with ⟨pre, post, rfl, hpost⟩ | rfl
    · exact ⟨pre, post ++ [.issue j], by simp, by simpa using hpost⟩
    · exact ⟨log, [], rfl, by simp⟩

@[simp] theorem outstanding_answer {log : List (Entry κ)} {j k : κ} :
    Outstanding (log ++ [.answer j]) k ↔ Outstanding log k ∧ k ≠ j := by
  constructor
  · intro h
    obtain ⟨pre, post, h, hpost⟩ := h
    rcases append_singleton_split h with ⟨he, -⟩ | ⟨mid, rfl, rfl⟩
    · cases he
    · refine ⟨⟨pre, mid, rfl, fun hmem => hpost (by simp [hmem])⟩, ?_⟩
      intro hk
      apply hpost
      simp [hk]
  · intro h
    obtain ⟨⟨pre, post, rfl, hpost⟩, hk⟩ := h
    exact ⟨pre, post ++ [.answer j], by simp, by simp [hpost, hk]⟩

theorem Outstanding.issued {log : List (Entry κ)} {k : κ} (h : Outstanding log k) :
    .issue k ∈ log := by
  obtain ⟨pre, post, rfl, -⟩ := h
  simp

/-- What a run of `log` answers: the identifiers of its effective answers, in order. -/
inductive Answered : List (Entry κ) → List κ → Prop
  | nil : Answered [] []
  | issue {log ks} (k : κ) : Answered log ks → Answered (log ++ [.issue k]) ks
  | effective {log ks k} : Answered log ks → Outstanding log k →
      Answered (log ++ [.answer k]) (ks ++ [k])
  | idle {log ks k} : Answered log ks → ¬ Outstanding log k → Answered (log ++ [.answer k]) ks

open Classical in
theorem Answered.count_le [DecidableEq κ] {log : List (Entry κ)} {ks : List κ}
    (h : Answered log ks) (k : κ) :
    ks.count k + (if Outstanding log k then 1 else 0) ≤ log.count (.issue k) := by
  induction h with
  | nil => simp
  | @issue log ks j _ ih =>
    by_cases hk : k = j
    · subst hk
      simp only [outstanding_issue, or_true, if_true, List.count_append, List.count_singleton_self]
      omega
    · have hne : (Entry.issue j == Entry.issue k) = false := by simpa using fun h => hk h.symm
      simpa [hk, List.count_singleton, hne] using ih
  | @effective log ks j _ hout ih =>
    by_cases hk : k = j
    · subst hk
      simp only [hout, if_true] at ih
      simpa using ih
    · have hne : (j == k) = false := by simpa using fun h => hk h.symm
      simpa [hk, List.count_singleton, hne] using ih
  | @idle log ks j _ hout ih =>
    by_cases hk : k = j
    · subst hk
      simp only [hout, if_false] at ih
      simpa using ih
    · simpa [hk] using ih

theorem Answered.count_le_one [DecidableEq κ] {log : List (Entry κ)} {ks : List κ}
    (h : Answered log ks) {k : κ} (hone : log.count (.issue k) ≤ 1) : ks.count k ≤ 1 := by
  have hle := h.count_le k
  omega

end Requests
