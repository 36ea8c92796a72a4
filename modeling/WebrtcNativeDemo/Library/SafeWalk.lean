import Mathlib.Data.List.Basic
import Mathlib.Order.Lattice

/-!
# Walking through a list that changes

A cursor goes through a list one element at a time, and in between elements are removed
or appended. The elements are known by their keys, which grow along the list. Where the
element at the cursor is removed, the cursor moves to the next one. Then it never loses
its element, no element comes twice, and none that is there from the first to the last
moment is passed over.
-/

namespace SafeWalk

variable {κ : Type*} [LinearOrder κ]

def following (keys : List κ) (k : κ) : Option κ := (keys.dropWhile (· ≠ k)).tail.head?

/-- The cursor when `k` is removed. -/
def slide (keys : List κ) (cursor : Option κ) (k : κ) : Option κ :=
  if cursor = some k then following keys k else cursor

structure Sound (bound : κ) (keys : List κ) (cursor : Option κ) : Prop where
  sorted : keys.Pairwise (· < ·)
  below : ∀ k ∈ keys, k < bound
  mem : ∀ c ∈ cursor, c ∈ keys

/-- The cursor passes over removed elements only, and what is new is above the bound. -/
structure Keeps (bound : κ) (keys : List κ) (cursor : Option κ) (keys' : List κ)
    (cursor' : Option κ) : Prop where
  old : ∀ n ∈ keys', n ∈ keys ∨ bound ≤ n
  forward : ∀ c' ∈ cursor', ∃ c ∈ cursor, c ≤ c'
  ahead : ∀ n ∈ keys', n ∈ keys → ∀ c ∈ cursor, c ≤ n → ∃ c' ∈ cursor', c' ≤ n

/-- A walk that has begun when all keys were below `start` and has seen `own` since;
`others` were seen on its behalf. -/
structure Walked (start : κ) (keys : List κ) (cursor : Option κ) (own others : List κ) :
    Prop where
  before : ∀ c ∈ cursor, ∀ n ∈ own, n < c
  covered : ∀ n ∈ keys, n < start → n ∈ own ∨ n ∈ others ∨ ∃ c ∈ cursor, c ≤ n

variable {bound bound' start k c : κ} {keys keys' keys'' own others : List κ}
  {cursor cursor' cursor'' : Option κ}

/-! ### The next element -/

theorem following_split {pre post : List κ} (h : k ∉ pre) :
    following (pre ++ k :: post) k = post.head? := by
  have hpre : ∀ a ∈ pre, decide (a ≠ k) = true := by
    intro a ha
    simp only [decide_eq_true_eq]
    rintro rfl
    exact h ha
  rw [following, List.dropWhile_append_of_pos hpre]
  simp

theorem following_spec (hs : keys.Pairwise (· < ·)) (hk : k ∈ keys) :
    (∀ m ∈ following keys k, m ∈ keys ∧ k < m) ∧
      ∀ n ∈ keys, k < n → ∃ m ∈ following keys k, m ≤ n := by
  obtain ⟨pre, post, rfl⟩ := List.append_of_mem hk
  obtain ⟨-, hpost, hcross⟩ := List.pairwise_append.mp hs
  obtain ⟨hlow, hpost⟩ := List.pairwise_cons.mp hpost
  have hpre : k ∉ pre := fun h => lt_irrefl k (hcross k h k (by simp))
  rw [following_split hpre]
  constructor
  · intro m hm
    have hm := List.mem_of_mem_head? hm
    exact ⟨by simp [hm], hlow m hm⟩
  · intro n hn hkn
    have hn : n ∈ post := by
      rcases List.mem_append.mp hn with hn | hn
      · exact absurd (hcross n hn k (by simp)) (lt_asymm hkn)
      · rcases List.mem_cons.mp hn with rfl | hn
        · exact absurd hkn (lt_irrefl _)
        · exact hn
    cases post with
    | nil => cases hn
    | cons m post =>
      refine ⟨m, rfl, ?_⟩
      rcases List.mem_cons.mp hn with rfl | hn
      · exact le_refl _
      · exact le_of_lt ((List.pairwise_cons.mp hpost).1 n hn)

/-! ### Changes behind the cursor -/

theorem Keeps.refl (bound : κ) (keys : List κ) (cursor : Option κ) :
    Keeps bound keys cursor keys cursor :=
  ⟨fun _ hn => .inl hn, fun c hc => ⟨c, hc, le_refl c⟩, fun _ _ _ c hc hle => ⟨c, hc, hle⟩⟩

theorem Keeps.trans (h : Keeps bound keys cursor keys' cursor')
    (h' : Keeps bound' keys' cursor' keys'' cursor'') (hs : ∀ n ∈ keys, n < bound)
    (hb : bound ≤ bound') : Keeps bound keys cursor keys'' cursor'' := by
  refine ⟨?_, ?_, ?_⟩
  · intro n hn
    rcases h'.old n hn with hn | hn
    · exact h.old n hn
    · exact .inr (le_trans hb hn)
  · intro c'' hc''
    obtain ⟨c', hc', hle'⟩ := h'.forward c'' hc''
    obtain ⟨c, hc, hle⟩ := h.forward c' hc'
    exact ⟨c, hc, le_trans hle hle'⟩
  · intro n hn hold c hc hle
    have hn' : n ∈ keys' := by
      rcases h'.old n hn with hn' | hn'
      · exact hn'
      · exact absurd (lt_of_lt_of_le (hs n hold) (le_trans hb hn')) (lt_irrefl n)
    obtain ⟨c', hc', hle'⟩ := h.ahead n hn' hold c hc hle
    exact h'.ahead n hn hn' c' hc' hle'

theorem Sound.slide (h : Sound bound keys cursor) (k : κ) :
    Sound bound (keys.filter (· ≠ k)) (slide keys cursor k) := by
  refine ⟨h.sorted.filter _, fun n hn => h.below n (List.mem_of_mem_filter hn), ?_⟩
  intro c hc
  unfold SafeWalk.slide at hc
  split_ifs at hc with hk
  · obtain ⟨hmem, hlt⟩ := (following_spec h.sorted (h.mem k hk)).1 c hc
    simp [hmem, ne_of_gt hlt]
  · have hne : c ≠ k := by
      rintro rfl
      exact hk hc
    simp [h.mem c hc, hne]

theorem Sound.keeps_slide (h : Sound bound keys cursor) (k : κ) :
    Keeps bound keys cursor (keys.filter (· ≠ k)) (SafeWalk.slide keys cursor k) := by
  refine ⟨fun n hn => .inl (List.mem_of_mem_filter hn), ?_, ?_⟩
  · intro c' hc'
    unfold SafeWalk.slide at hc'
    split_ifs at hc' with hk
    · exact ⟨k, hk, le_of_lt ((following_spec h.sorted (h.mem k hk)).1 c' hc').2⟩
    · exact ⟨c', hc', le_refl _⟩
  · intro n hn hold c hc hle
    unfold SafeWalk.slide
    split_ifs with hk
    · obtain rfl : c = k := Option.some.inj (hc.symm.trans hk)
      have hne : n ≠ c := by simpa using (List.mem_filter.mp hn).2
      exact (following_spec h.sorted (h.mem c hk)).2 n hold (lt_of_le_of_ne hle hne.symm)
    · exact ⟨c, hc, hle⟩

theorem Sound.push (h : Sound bound keys cursor) (hb : bound < bound') :
    Sound bound' (keys ++ [bound]) cursor := by
  refine ⟨?_, ?_, fun c hc => List.mem_append_left _ (h.mem c hc)⟩
  · refine List.pairwise_append.mpr ⟨h.sorted, List.pairwise_singleton _ _, ?_⟩
    intro n hn m hm
    rw [List.mem_singleton.mp hm]
    exact h.below n hn
  · intro n hn
    rcases List.mem_append.mp hn with hn | hn
    · exact lt_trans (h.below n hn) hb
    · rw [List.mem_singleton.mp hn]
      exact hb

theorem keeps_push (bound : κ) (keys : List κ) (cursor : Option κ) :
    Keeps bound keys cursor (keys ++ [bound]) cursor := by
  refine ⟨?_, fun c hc => ⟨c, hc, le_refl c⟩, fun _ _ _ c hc hle => ⟨c, hc, hle⟩⟩
  intro n hn
  rcases List.mem_append.mp hn with hn | hn
  · exact .inl hn
  · exact .inr (List.mem_singleton.mp hn).ge

theorem sound_nil (bound : κ) : Sound bound [] none := ⟨.nil, by simp, by simp⟩

theorem keeps_nil (bound : κ) (keys : List κ) (cursor : Option κ) :
    Keeps bound keys cursor [] none := ⟨by simp, by simp, by simp⟩

theorem Sound.mono (h : Sound bound keys cursor) (hb : bound ≤ bound') :
    Sound bound' keys cursor :=
  ⟨h.sorted, fun k hk => lt_of_lt_of_le (h.below k hk) hb, h.mem⟩

/-! ### The walk -/

theorem Walked.keeps (h : Walked start keys cursor own others)
    (hk : Keeps bound keys cursor keys' cursor') (hb : start ≤ bound) :
    Walked start keys' cursor' own others := by
  constructor
  · intro c' hc' n hn
    obtain ⟨c, hc, hle⟩ := hk.forward c' hc'
    exact lt_of_lt_of_le (h.before c hc n hn) hle
  · intro n hn hlow
    have hold : n ∈ keys := by
      rcases hk.old n hn with hold | hold
      · exact hold
      · exact absurd (lt_of_lt_of_le hlow (le_trans hb hold)) (lt_irrefl n)
    rcases h.covered n hold hlow with h | h | ⟨c, hc, hle⟩
    · exact .inl h
    · exact .inr (.inl h)
    · exact .inr (.inr (hk.ahead n hn hold c hc hle))

theorem walked_begin (hs : keys.Pairwise (· < ·)) : Walked start keys keys.head? [] [] := by
  refine ⟨by simp, fun n hn _ => .inr (.inr ?_)⟩
  cases keys with
  | nil => cases hn
  | cons c keys =>
    refine ⟨c, rfl, ?_⟩
    rcases List.mem_cons.mp hn with rfl | hn
    · exact le_refl _
    · exact le_of_lt ((List.pairwise_cons.mp hs).1 n hn)

theorem Walked.advance (h : Walked start keys (some c) own others)
    (hs : Sound bound keys (some c)) :
    Walked start keys (following keys c) (own ++ [c]) others := by
  obtain ⟨hmem, hnext⟩ := following_spec hs.sorted (hs.mem c rfl)
  constructor
  · intro m hm n hn
    have hcm := (hmem m hm).2
    rcases List.mem_append.mp hn with hn | hn
    · exact lt_trans (h.before c rfl n hn) hcm
    · rw [List.mem_singleton.mp hn]
      exact hcm
  · intro n hn hlow
    rcases h.covered n hn hlow with h | h | ⟨c', hc', hle⟩
    · exact .inl (by simp [h])
    · exact .inr (.inl h)
    · obtain rfl : c = c' := Option.some.inj hc'
      rcases eq_or_lt_of_le hle with rfl | hlt
      · exact .inl (by simp)
      · exact .inr (.inr (hnext n hn hlt))

theorem Sound.advance (h : Sound bound keys (some c)) :
    Sound bound keys (following keys c) :=
  ⟨h.sorted, h.below, fun m hm => ((following_spec h.sorted (h.mem c rfl)).1 m hm).1⟩

/-- At the end nothing is left that was there all the time. -/
theorem Walked.complete (h : Walked start keys none own others) :
    ∀ n ∈ keys, n < start → n ∈ own ∨ n ∈ others := by
  intro n hn hlow
  rcases h.covered n hn hlow with h | h | ⟨c, hc, -⟩
  · exact .inl h
  · exact .inr h
  · cases hc

/-- A walk that came to its end did so for any walk that began before. -/
theorem Walked.absorb {start' : κ} {own' others' : List κ}
    (h : Walked start keys none own others) (hle : start' ≤ start) :
    Walked start' keys none own' (others' ++ own ++ others) := by
  refine ⟨by simp, fun n hn hlow => .inr (.inl ?_)⟩
  rcases h.complete n hn (lt_of_lt_of_le hlow hle) with h | h
  · simp [h]
  · simp [h]

end SafeWalk
