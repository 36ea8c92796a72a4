import Mathlib.Data.List.Basic

/-!
# UTF-8

The byte sequences that encode characters, recognised from left to right: the first
byte of a character tells in which ranges its further bytes have to lie. A sequence is
accepted exactly when it is the encoding of some list of characters.
-/

namespace Utf8

structure Range where
  low : UInt8
  high : UInt8
deriving DecidableEq, Repr

def tail : Range := ⟨0x80, 0xBF⟩

def Range.Has (r : Range) (b : UInt8) : Prop := r.low ≤ b ∧ b ≤ r.high

instance (r : Range) (b : UInt8) : Decidable (r.Has b) := inferInstanceAs (Decidable (_ ∧ _))

/-- The ranges of the bytes that follow the first byte of a character. -/
def ranges (b : UInt8) : Option (List Range) :=
  if b < 0x80 then some []
  else if b < 0xC2 then none
  else if b < 0xE0 then some [tail]
  else if b = 0xE0 then some [⟨0xA0, 0xBF⟩, tail]
  else if b = 0xED then some [⟨0x80, 0x9F⟩, tail]
  else if b < 0xF0 then some [tail, tail]
  else if b = 0xF0 then some [⟨0x90, 0xBF⟩, tail, tail]
  else if b < 0xF4 then some [tail, tail, tail]
  else if b = 0xF4 then some [⟨0x80, 0x8F⟩, tail, tail]
  else none

/-- One byte, where the ranges of the bytes before it are still to be met. -/
def next : List Range → UInt8 → Option (List Range)
  | [], b => ranges b
  | r :: rs, b => if r.Has b then some rs else none

def run : List Range → List UInt8 → Option (List Range)
  | p, [] => some p
  | p, b :: bs => (next p b).bind fun q => run q bs

/-- The bytes of one character: `s` meets the ranges that its first byte calls for. -/
def Encodes (b : UInt8) (s : List UInt8) : Prop :=
  ∃ p, ranges b = some p ∧ s.length = p.length ∧ run p s = some []

def Valid (s : List UInt8) : Prop := run [] s = some []

def encode (cs : List Char) : List UInt8 := cs.flatMap String.utf8EncodeChar

/-! ### The encodings are accepted -/

theorem run_append (p : List Range) (s t : List UInt8) :
    run p (s ++ t) = (run p s).bind fun q => run q t := by
  induction s generalizing p with
  | nil => rfl
  | cons b bs ih =>
    simp only [List.cons_append, run, Option.bind_assoc]
    congr 1
    funext q
    exact ih q

theorem ranges_one {b : UInt8} (h : b.toNat < 0x80) : ranges b = some [] := by
  simp [ranges, UInt8.lt_iff_toNat_lt, h]

theorem has_tail {b : UInt8} : tail.Has b ↔ 0x80 ≤ b.toNat ∧ b.toNat < 0xC0 := by
  simp only [Range.Has, tail, UInt8.le_iff_toNat_le, UInt8.reduceToNat]
  omega

theorem ranges_two {b : UInt8} (h : 0xC2 ≤ b.toNat) (h' : b.toNat < 0xE0) :
    ranges b = some [tail] := by
  have h1 : ¬ b.toNat < 0x80 := by omega
  have h2 : ¬ b.toNat < 0xC2 := by omega
  simp [ranges, UInt8.lt_iff_toNat_lt, h1, h2, h']

theorem encodes_two {b c : UInt8} (hb : 0xC2 ≤ b.toNat) (hb' : b.toNat < 0xE0)
    (hc : tail.Has c) : Encodes b [c] :=
  ⟨[tail], ranges_two hb hb', rfl, by simp [run, next, hc]⟩

theorem encodes_three {b c d : UInt8} (hb : 0xE0 ≤ b.toNat) (hb' : b.toNat < 0xF0)
    (hc : tail.Has c) (hd : tail.Has d) (hlow : b.toNat = 0xE0 → 0xA0 ≤ c.toNat)
    (hhigh : b.toNat = 0xED → c.toNat < 0xA0) : Encodes b [c, d] := by
  have hc' := has_tail.mp hc
  by_cases he : b.toNat = 0xE0
  · have hlow := hlow he
    have hrange : (⟨0xA0, 0xBF⟩ : Range).Has c := by
      simp only [Range.Has, UInt8.le_iff_toNat_le, UInt8.reduceToNat]
      omega
    refine ⟨[⟨0xA0, 0xBF⟩, tail], ?_, rfl, by simp [run, next, hrange, hd]⟩
    simp [ranges, UInt8.lt_iff_toNat_lt, ← UInt8.toNat_inj, he]
  · by_cases hs : b.toNat = 0xED
    · have hhigh := hhigh hs
      have hrange : (⟨0x80, 0x9F⟩ : Range).Has c := by
        simp only [Range.Has, UInt8.le_iff_toNat_le, UInt8.reduceToNat]
        omega
      refine ⟨[⟨0x80, 0x9F⟩, tail], ?_, rfl, by simp [run, next, hrange, hd]⟩
      simp [ranges, UInt8.lt_iff_toNat_lt, ← UInt8.toNat_inj, hs]
    · have h1 : ¬ b.toNat < 0x80 := by omega
      have h2 : ¬ b.toNat < 0xC2 := by omega
      have h3 : ¬ b.toNat < 0xE0 := by omega
      refine ⟨[tail, tail], ?_, rfl, by simp [run, next, hc, hd]⟩
      simp [ranges, UInt8.lt_iff_toNat_lt, ← UInt8.toNat_inj, h1, h2, h3, hb', he, hs]

theorem encodes_four {b c d e : UInt8} (hb : 0xF0 ≤ b.toNat) (hb' : b.toNat < 0xF5)
    (hc : tail.Has c) (hd : tail.Has d) (he : tail.Has e) (hlow : b.toNat = 0xF0 → 0x90 ≤ c.toNat)
    (hhigh : b.toNat = 0xF4 → c.toNat < 0x90) : Encodes b [c, d, e] := by
  have hc' := has_tail.mp hc
  by_cases hf : b.toNat = 0xF0
  · have hlow := hlow hf
    have hrange : (⟨0x90, 0xBF⟩ : Range).Has c := by
      simp only [Range.Has, UInt8.le_iff_toNat_le, UInt8.reduceToNat]
      omega
    refine ⟨[⟨0x90, 0xBF⟩, tail, tail], ?_, rfl, by simp [run, next, hrange, hd, he]⟩
    simp [ranges, UInt8.lt_iff_toNat_lt, ← UInt8.toNat_inj, hf]
  · by_cases hs : b.toNat = 0xF4
    · have hhigh := hhigh hs
      have hrange : (⟨0x80, 0x8F⟩ : Range).Has c := by
        simp only [Range.Has, UInt8.le_iff_toNat_le, UInt8.reduceToNat]
        omega
      refine ⟨[⟨0x80, 0x8F⟩, tail, tail], ?_, rfl, by simp [run, next, hrange, hd, he]⟩
      simp [ranges, UInt8.lt_iff_toNat_lt, ← UInt8.toNat_inj, hs]
    · have h1 : ¬ b.toNat < 0x80 := by omega
      have h2 : ¬ b.toNat < 0xC2 := by omega
      have h3 : ¬ b.toNat < 0xE0 := by omega
      have h4 : ¬ b.toNat < 0xF0 := by omega
      have h5 : b.toNat ≠ 0xE0 := by omega
      have h6 : b.toNat ≠ 0xED := by omega
      have h7 : b.toNat < 0xF4 := by omega
      refine ⟨[tail, tail, tail], ?_, rfl, by simp [run, next, hc, hd, he]⟩
      simp [ranges, UInt8.lt_iff_toNat_lt, ← UInt8.toNat_inj, h1, h2, h3, h4, h5, h6, h7, hf]

theorem encodes_char (c : Char) : ∃ b s, String.utf8EncodeChar c = b :: s ∧ Encodes b s := by
  have hc : c.val.toNat < 0xD800 ∨ 0xDFFF < c.val.toNat ∧ c.val.toNat < 0x110000 := c.valid
  simp only [String.utf8EncodeChar]
  generalize c.val.toNat = v at hc ⊢
  have htail : ∀ n, tail.Has (UInt8.ofNat (n % 0x40 + 0x80)) := by
    intro n
    rw [has_tail, UInt8.toNat_ofNat']
    omega
  split_ifs with h1 h2 h3
  · have hone : (UInt8.ofNat v).toNat < 0x80 := by rw [UInt8.toNat_ofNat']; omega
    exact ⟨_, _, rfl, [], ranges_one hone, rfl, rfl⟩
  · refine ⟨_, _, rfl, encodes_two ?_ ?_ (htail v)⟩ <;> rw [UInt8.toNat_ofNat'] <;> omega
  · refine ⟨_, _, rfl, encodes_three ?_ ?_ (htail (v / 64)) (htail v) ?_ ?_⟩ <;>
      simp only [UInt8.toNat_ofNat'] <;> omega
  · refine ⟨_, _, rfl, encodes_four ?_ ?_ (htail (v / 4096)) (htail (v / 64)) (htail v) ?_ ?_⟩ <;>
      simp only [UInt8.toNat_ofNat'] <;> omega

theorem Encodes.run {b : UInt8} {s : List UInt8} (h : Encodes b s) : run [] (b :: s) = some [] := by
  obtain ⟨p, hp, -, hs⟩ := h
  exact Option.bind_eq_some_iff.mpr ⟨p, hp, hs⟩

theorem run_char (c : Char) : run [] (String.utf8EncodeChar c) = some [] := by
  obtain ⟨b, s, hc, h⟩ := encodes_char c
  rw [hc]
  exact h.run

/-! ### What is accepted is an encoding -/

theorem run_pending {r : Range} {p : List Range} {s : List UInt8} (h : run (r :: p) s = some []) :
    ∃ b rest, s = b :: rest ∧ r.Has b ∧ run p rest = some [] := by
  cases s with
  | nil => simp [run] at h
  | cons b rest =>
    simp only [run, next] at h
    split_ifs at h with hb
    · exact ⟨b, rest, rfl, hb, h⟩
    · cases h

/-- What meets the pending ranges, and what comes after it. -/
theorem run_split {p : List Range} {s : List UInt8} (h : run p s = some []) :
    ∃ t rest, s = t ++ rest ∧ t.length = p.length ∧ run p t = some [] ∧ run [] rest = some [] := by
  induction p generalizing s with
  | nil => exact ⟨[], s, rfl, rfl, rfl, h⟩
  | cons r p ih =>
    obtain ⟨b, s, rfl, hb, hs⟩ := run_pending h
    obtain ⟨t, rest, rfl, hlen, ht, hrest⟩ := ih hs
    exact ⟨b :: t, rest, rfl, by simp [hlen], by simp [run, next, hb, ht], hrest⟩

/-- The first byte of a character, with the ranges of those behind it. -/
inductive Lead (b : UInt8) : List Range → Prop
  | one (h : b.toNat < 0x80) : Lead b []
  | two (h : 0xC2 ≤ b.toNat) (h' : b.toNat < 0xE0) : Lead b [tail]
  | three (r : Range) (h : 0xE0 ≤ b.toNat) (h' : b.toNat < 0xF0)
      (hr : ∀ c, r.Has c → tail.Has c ∧ (b.toNat = 0xE0 → 0xA0 ≤ c.toNat) ∧
        (b.toNat = 0xED → c.toNat < 0xA0)) : Lead b [r, tail]
  | four (r : Range) (h : 0xF0 ≤ b.toNat) (h' : b.toNat < 0xF5)
      (hr : ∀ c, r.Has c → tail.Has c ∧ (b.toNat = 0xF0 → 0x90 ≤ c.toNat) ∧
        (b.toNat = 0xF4 → c.toNat < 0x90)) : Lead b [r, tail, tail]

theorem lead_of_ranges {b : UInt8} {p : List Range} (h : ranges b = some p) : Lead b p := by
  simp only [ranges, UInt8.lt_iff_toNat_lt, ← UInt8.toNat_inj, UInt8.reduceToNat] at h
  split_ifs at h with h1 h2 h3 h4 h5 h6 h7 h8 h9 <;> obtain rfl := Option.some.inj h
  · exact .one h1
  · exact .two (by omega) h3
  · refine .three _ (by omega) (by omega) fun c hc => ?_
    simp only [Range.Has, tail, UInt8.le_iff_toNat_le, UInt8.reduceToNat] at hc ⊢
    omega
  · refine .three _ (by omega) (by omega) fun c hc => ?_
    simp only [Range.Has, tail, UInt8.le_iff_toNat_le, UInt8.reduceToNat] at hc ⊢
    omega
  · refine .three _ (by omega) (by omega) fun c hc => ⟨hc, by omega, by omega⟩
  · refine .four _ (by omega) (by omega) fun c hc => ?_
    simp only [Range.Has, tail, UInt8.le_iff_toNat_le, UInt8.reduceToNat] at hc ⊢
    omega
  · refine .four _ (by omega) (by omega) fun c hc => ⟨hc, by omega, by omega⟩
  · refine .four _ (by omega) (by omega) fun c hc => ?_
    simp only [Range.Has, tail, UInt8.le_iff_toNat_le, UInt8.reduceToNat] at hc ⊢
    omega

theorem exists_toNat {v : ℕ} (h : v < 0xD800 ∨ 0xDFFF < v ∧ v < 0x110000) :
    ∃ c : Char, c.val.toNat = v := ⟨Char.ofNatAux v h, rfl⟩

theorem exists_char {b : UInt8} {s : List UInt8} (h : Encodes b s) :
    ∃ c, b :: s = String.utf8EncodeChar c := by
  obtain ⟨p, hp, hlen, hs⟩ := h
  cases lead_of_ranges hp with
  | one hb =>
    obtain rfl := List.eq_nil_of_length_eq_zero hlen
    obtain ⟨c, hc⟩ := exists_toNat (v := b.toNat) (by omega)
    have h1 : b.toNat ≤ 0x7f := by omega
    exact ⟨c, by simp [String.utf8EncodeChar, hc, h1]⟩
  | two hb hb' =>
    obtain ⟨b₁, s, rfl, h1, -⟩ := run_pending hs
    obtain rfl : s = [] := List.eq_nil_of_length_eq_zero (by simpa using hlen)
    rw [has_tail] at h1
    obtain ⟨c, hc⟩ := exists_toNat (v := (b.toNat - 0xC0) * 64 + (b₁.toNat - 0x80)) (by omega)
    refine ⟨c, ?_⟩
    simp only [String.utf8EncodeChar, hc]
    rw [if_neg (by omega), if_pos (by omega)]
    simp only [List.cons.injEq, ← UInt8.toNat_inj, UInt8.toNat_ofNat', and_true]
    omega
  | three r hb hb' hr =>
    obtain ⟨b₁, s, rfl, h1, hs⟩ := run_pending hs
    obtain ⟨b₂, s, rfl, h2, -⟩ := run_pending hs
    obtain rfl : s = [] := List.eq_nil_of_length_eq_zero (by simpa using hlen)
    obtain ⟨h1, hlow, hhigh⟩ := hr _ h1
    rw [has_tail] at h1 h2
    obtain ⟨c, hc⟩ := exists_toNat
      (v := (b.toNat - 0xE0) * 4096 + (b₁.toNat - 0x80) * 64 + (b₂.toNat - 0x80)) (by omega)
    refine ⟨c, ?_⟩
    simp only [String.utf8EncodeChar, hc]
    rw [if_neg (by omega), if_neg (by omega), if_pos (by omega)]
    simp only [List.cons.injEq, ← UInt8.toNat_inj, UInt8.toNat_ofNat', and_true]
    omega
  | four r hb hb' hr =>
    obtain ⟨b₁, s, rfl, h1, hs⟩ := run_pending hs
    obtain ⟨b₂, s, rfl, h2, hs⟩ := run_pending hs
    obtain ⟨b₃, s, rfl, h3, -⟩ := run_pending hs
    obtain rfl : s = [] := List.eq_nil_of_length_eq_zero (by simpa using hlen)
    obtain ⟨h1, hlow, hhigh⟩ := hr _ h1
    rw [has_tail] at h1 h2 h3
    obtain ⟨c, hc⟩ := exists_toNat (v := (b.toNat - 0xF0) * 262144 + (b₁.toNat - 0x80) * 4096 +
      (b₂.toNat - 0x80) * 64 + (b₃.toNat - 0x80)) (by omega)
    refine ⟨c, ?_⟩
    simp only [String.utf8EncodeChar, hc]
    rw [if_neg (by omega), if_neg (by omega), if_neg (by omega)]
    simp only [List.cons.injEq, ← UInt8.toNat_inj, UInt8.toNat_ofNat', and_true]
    omega

@[simp] theorem encode_nil : encode [] = [] := rfl

@[simp] theorem encode_cons (c : Char) (cs : List Char) :
    encode (c :: cs) = String.utf8EncodeChar c ++ encode cs := rfl

@[simp] theorem encode_append (cs ds : List Char) : encode (cs ++ ds) = encode cs ++ encode ds :=
  List.flatMap_append

/-! ### Validity -/

theorem valid_encode (cs : List Char) : Valid (encode cs) := by
  induction cs with
  | nil => rfl
  | cons c cs ih =>
    rw [Valid, encode_cons, run_append, run_char]
    exact ih

theorem valid_ascii {s : List UInt8} (h : ∀ b ∈ s, b.toNat < 0x80) : Valid s := by
  induction s with
  | nil => rfl
  | cons b s ih =>
    obtain ⟨hb, hs⟩ := List.forall_mem_cons.mp h
    have hnext : next [] b = some [] := ranges_one hb
    have hs : run [] s = some [] := ih hs
    rw [Valid, run, hnext, Option.bind_some, hs]

theorem Valid.append {s t : List UInt8} (hs : Valid s) (ht : Valid t) : Valid (s ++ t) := by
  have hs : run [] s = some [] := hs
  have ht : run [] t = some [] := ht
  rw [Valid, run_append, hs, Option.bind_some, ht]

theorem exists_encode (s : List UInt8) (h : Valid s) : ∃ cs, s = encode cs := by
  induction hn : s.length using Nat.strongRecOn generalizing s with
  | ind n ih =>
    cases s with
    | nil => exact ⟨[], rfl⟩
    | cons b s =>
      obtain ⟨p, hp, hs⟩ := Option.bind_eq_some_iff.mp h
      obtain ⟨t, rest, rfl, hlen, ht, hrest⟩ := run_split hs
      obtain ⟨c, hc⟩ := exists_char ⟨p, hp, hlen, ht⟩
      have hlt : rest.length < n := by
        rw [← hn, List.length_cons, List.length_append]
        omega
      obtain ⟨cs, rfl⟩ := ih _ hlt rest hrest rfl
      exact ⟨c :: cs, by rw [encode_cons, ← hc]; rfl⟩

theorem valid_iff {s : List UInt8} : Valid s ↔ ∃ cs, s = encode cs := by
  constructor
  · exact exists_encode s
  · rintro ⟨cs, rfl⟩
    exact valid_encode cs

/-! ### Code points -/

def leadBits (b : UInt8) : ℕ :=
  if b < 0x80 then b.toNat
  else if b < 0xE0 then b.toNat - 0xC0
  else if b < 0xF0 then b.toNat - 0xE0
  else b.toNat - 0xF0

/-- The bits of a character, or of its first bytes. -/
def codePoint : List UInt8 → ℕ
  | [] => 0
  | b :: s => s.foldl (fun n c => n * 64 + (c.toNat - 0x80)) (leadBits b)

theorem codePoint_append {s : List UInt8} (b : UInt8) (hs : s ≠ []) :
    codePoint (s ++ [b]) = codePoint s * 64 + (b.toNat - 0x80) := by
  cases s with
  | nil => exact absurd rfl hs
  | cons c s => simp [codePoint]

theorem codePoint_char (c : Char) : codePoint (String.utf8EncodeChar c) = c.toNat := by
  have hc : c.val.toNat < 0xD800 ∨ 0xDFFF < c.val.toNat ∧ c.val.toNat < 0x110000 := c.valid
  show _ = c.val.toNat
  simp only [String.utf8EncodeChar]
  generalize c.val.toNat = v at hc ⊢
  split_ifs with h1 h2 h3 <;>
    simp only [codePoint, leadBits, List.foldl, UInt8.lt_iff_toNat_lt, UInt8.toNat_ofNat',
      UInt8.reduceToNat] <;>
    split_ifs <;> omega

/-! ### Ill-formed sequences -/

/-- `t` is how some character begins. -/
def Begins (t : List UInt8) : Prop := ∃ c, t <+: String.utf8EncodeChar c

/-- A piece in front of `s` that is no character: a byte that begins none, or as much of
one as there is. -/
structure Truncated (t s : List UInt8) : Prop where
  nonempty : t ≠ []
  short : t.length = 1 ∨ Begins t
  incomplete : ∀ c, t ≠ String.utf8EncodeChar c
  longest : ∀ b ∈ s.head?, ¬ Begins (t ++ [b])

/-- The characters of a sequence, with `none` for every piece that is none. -/
inductive Repaired : List UInt8 → List (Option Char) → Prop
  | nil : Repaired [] []
  | char {c : Char} {s : List UInt8} {cs : List (Option Char)} (h : Repaired s cs) :
      Repaired (String.utf8EncodeChar c ++ s) (some c :: cs)
  | piece {t s : List UInt8} {cs : List (Option Char)} (ht : Truncated t s) (h : Repaired s cs) :
      Repaired (t ++ s) (none :: cs)

theorem run_length {p q : List Range} {s : List UInt8} (h : run p s = some q)
    (hs : s.length ≤ p.length) : p.length = s.length + q.length := by
  induction s generalizing p with
  | nil =>
    obtain rfl := Option.some.inj h
    simp
  | cons b s ih =>
    cases p with
    | nil => simp at hs
    | cons r p =>
      simp only [run, next] at h
      split_ifs at h with hb
      · have := ih h (by simpa using hs)
        simp only [List.length_cons]
        omega
      · cases h

theorem run_suffix {p q : List Range} {s : List UInt8} (h : run p s = some q)
    (hs : s.length ≤ p.length) : q <:+ p := by
  induction s generalizing p with
  | nil =>
    obtain rfl := Option.some.inj h
    exact List.suffix_rfl
  | cons b s ih =>
    cases p with
    | nil => simp at hs
    | cons r p =>
      simp only [run, next] at h
      split_ifs at h with hb
      · exact (ih h (by simpa using hs)).trans (List.suffix_cons r p)
      · cases h

theorem run_low {p : List Range} (h : ∀ r ∈ p, r.Has r.low) :
    run p (p.map Range.low) = some [] := by
  induction p with
  | nil => rfl
  | cons r p ih =>
    obtain ⟨hr, hp⟩ := List.forall_mem_cons.mp h
    simp [run, next, hr, ih hp]

theorem ranges_low {b : UInt8} {p : List Range} (h : ranges b = some p) : ∀ r ∈ p, r.Has r.low := by
  simp only [ranges] at h
  split_ifs at h <;> obtain rfl := Option.some.inj h <;> decide

theorem begins_iff {b : UInt8} {s : List UInt8} :
    Begins (b :: s) ↔ ∃ p q, ranges b = some p ∧ s.length ≤ p.length ∧ run p s = some q := by
  constructor
  · rintro ⟨c, rest, hc⟩
    obtain ⟨b', s', hc', p, hp, hlen, hrun⟩ := encodes_char c
    obtain ⟨rfl, rfl⟩ := List.cons.inj (hc.trans hc')
    rw [List.append_eq, run_append] at hrun
    obtain ⟨q, hq, -⟩ := Option.bind_eq_some_iff.mp hrun
    refine ⟨p, q, hp, ?_, hq⟩
    rw [← hlen, List.append_eq, List.length_append]
    omega
  · rintro ⟨p, q, hp, hlen, hrun⟩
    have hq : ∀ r ∈ q, r.Has r.low := fun r hr =>
      ranges_low hp r ((run_suffix hrun hlen).subset hr)
    have hlen' := run_length hrun hlen
    have hall : run p (s ++ q.map Range.low) = some [] := by
      rw [run_append, hrun]
      exact run_low hq
    obtain ⟨c, hc⟩ := exists_char ⟨p, hp, by simp [hlen'], hall⟩
    exact ⟨c, q.map Range.low, hc⟩

/-- The bytes read since the last character, with the ranges that are still to be met. -/
inductive Pending : List UInt8 → List Range → Prop
  | start : Pending [] []
  | inside {b : UInt8} {s : List UInt8} {p q : List Range} (hp : ranges b = some p)
      (hs : run p s = some q) (hlen : s.length < p.length) : Pending (b :: s) q

theorem Pending.eq_nil {s : List UInt8} (h : Pending s []) : s = [] := by
  cases h with
  | start => rfl
  | inside hp hs hlen =>
    have := run_length hs (Nat.le_of_lt hlen)
    simp at this
    omega

theorem Pending.length_le {s : List UInt8} {q : List Range} (h : Pending s q) : s.length ≤ 3 := by
  cases h with
  | start => simp
  | @inside b s p q hp hs hlen =>
    have hfour : p.length ≤ 3 := by cases lead_of_ranges hp <;> simp
    rw [List.length_cons]
    omega

theorem Pending.step {s : List UInt8} {q q' : List Range} {b : UInt8} (h : Pending s q)
    (hn : Utf8.next q b = some q') :
    (q' = [] ∧ ∃ c, s ++ [b] = String.utf8EncodeChar c) ∨ q' ≠ [] ∧ Pending (s ++ [b]) q' := by
  cases h with
  | start =>
    cases q' with
    | nil => exact .inl ⟨rfl, exists_char ⟨[], hn, rfl, rfl⟩⟩
    | cons r q' => exact .inr ⟨by simp, .inside hn rfl (by simp)⟩
  | @inside b' s p q hp hs hlen =>
    have hrun : run p (s ++ [b]) = some q' := by
      rw [run_append, hs]
      simp [run, hn]
    have hlen' := run_length hrun (by simpa using Nat.succ_le_of_lt hlen)
    cases q' with
    | nil => exact .inl ⟨rfl, exists_char ⟨p, hp, by simpa using hlen'.symm, hrun⟩⟩
    | cons r q' =>
      refine .inr ⟨by simp, .inside hp hrun ?_⟩
      simp at hlen' ⊢
      omega

/-- A byte that cannot come next ends a piece: the byte alone, or what was before it. -/
theorem Pending.truncated {s t : List UInt8} {q : List Range} {b : UInt8} (h : Pending s q)
    (hn : Utf8.next q b = none) :
    (s = [] ∧ Truncated [b] t) ∨ s ≠ [] ∧ Truncated s (b :: t) := by
  cases h with
  | start =>
    have hno (u : List UInt8) : ¬ Begins (b :: u) := by
      rw [begins_iff]
      rintro ⟨p, q, hp, -⟩
      cases (hn : ranges b = none).symm.trans hp
    refine .inl ⟨rfl, by simp, .inl rfl, ?_, ?_⟩
    · intro c hc
      exact hno [] ⟨c, hc ▸ List.prefix_rfl⟩
    · intro c _
      exact hno [c]
  | @inside b' s p q hp hs hlen =>
    have hbegins := begins_iff.mpr ⟨p, q, hp, Nat.le_of_lt hlen, hs⟩
    refine .inr ⟨by simp, by simp, .inr hbegins, ?_, ?_⟩
    · intro c hc
      obtain ⟨b'', s', hc', p', hp', hlen', -⟩ := encodes_char c
      obtain ⟨rfl, rfl⟩ := List.cons.inj (hc.trans hc')
      obtain rfl := Option.some.inj (hp.symm.trans hp')
      omega
    · intro c hc
      obtain rfl : b = c := by simpa using hc
      rw [List.cons_append, begins_iff]
      rintro ⟨p', q', hp', -, hs'⟩
      obtain rfl := Option.some.inj (hp.symm.trans hp')
      rw [run_append, hs] at hs'
      simp [run, hn] at hs'

/-- At the end of the input, a character that has begun is a piece too. -/
theorem Pending.truncated_end {s : List UInt8} {q : List Range} (h : Pending s q) (hs : s ≠ []) :
    Truncated s [] := by
  cases h with
  | start => exact absurd rfl hs
  | @inside b' s p q hp hrun hlen =>
    refine ⟨by simp, .inr (begins_iff.mpr ⟨p, q, hp, (Nat.le_of_lt hlen), hrun⟩), ?_, by simp⟩
    intro c hc
    obtain ⟨b'', s', hc', p', hp', hlen', -⟩ := encodes_char c
    obtain ⟨rfl, rfl⟩ := List.cons.inj (hc.trans hc')
    obtain rfl := Option.some.inj (hp.symm.trans hp')
    omega

/-! ### Every sequence has one repair -/

/-- No encoding is the beginning of another one. -/
theorem prefix_free {c d : Char} (h : String.utf8EncodeChar c <+: String.utf8EncodeChar d) :
    c = d := by
  obtain ⟨b, s, hc, p, hp, hlen, -⟩ := encodes_char c
  obtain ⟨b', s', hd, p', hp', hlen', -⟩ := encodes_char d
  have heq : String.utf8EncodeChar c = String.utf8EncodeChar d := by
    apply h.eq_of_length
    rw [hc, hd] at h ⊢
    obtain ⟨rfl, -⟩ := List.cons_prefix_cons.mp h
    obtain rfl := Option.some.inj (hp.symm.trans hp')
    simp [hlen, hlen']
  have hnat : c.toNat = d.toNat := by rw [← codePoint_char, heq, codePoint_char]
  exact Char.ext (UInt32.toNat_inj.mp hnat)

theorem char_injective {c d : Char} {s t : List UInt8}
    (h : String.utf8EncodeChar c ++ s = String.utf8EncodeChar d ++ t) : c = d ∧ s = t := by
  have hcd : c = d := by
    rcases List.prefix_or_prefix_of_prefix (List.prefix_append _ s)
      (h ▸ List.prefix_append (String.utf8EncodeChar d) t) with h | h
    · exact prefix_free h
    · exact (prefix_free h).symm
  subst hcd
  exact ⟨rfl, List.append_cancel_left h⟩

theorem Begins.of_prefix {s t : List UInt8} (h : Begins t) (hs : s <+: t) : Begins s := by
  obtain ⟨c, hc⟩ := h
  exact ⟨c, hs.trans hc⟩

/-- A piece is not longer than anything that begins a character in its place. -/
theorem Truncated.length_le {t s u v : List UInt8} (h : Truncated t s) (hu : Begins u)
    (heq : t ++ s = u ++ v) : u.length ≤ t.length := by
  by_contra hlt
  rw [Nat.not_le] at hlt
  have htu : t <+: u := List.prefix_of_prefix_length_le (List.prefix_append t s)
    (heq ▸ List.prefix_append u v) (Nat.le_of_lt hlt)
  obtain ⟨w, rfl⟩ := htu
  cases w with
  | nil => simp at hlt
  | cons b w =>
    obtain rfl : s = b :: w ++ v := List.append_cancel_left (by rw [heq, List.append_assoc])
    exact h.longest b rfl (hu.of_prefix ⟨w, by simp⟩)

theorem Truncated.not_char {t s v : List UInt8} {c : Char} (h : Truncated t s)
    (heq : t ++ s = String.utf8EncodeChar c ++ v) : False := by
  have hle := h.length_le ⟨c, List.prefix_rfl⟩ heq
  have hpre : String.utf8EncodeChar c <+: t := List.prefix_of_prefix_length_le
    (heq ▸ List.prefix_append _ v) (List.prefix_append t s) hle
  rcases h.short with hone | ⟨d, hd⟩
  · have hpos := List.length_pos_iff.mpr (String.utf8EncodeChar_ne_nil (c := c))
    exact h.incomplete c (hpre.eq_of_length (by omega)).symm
  · obtain rfl := prefix_free (hpre.trans hd)
    exact h.incomplete c (hd.eq_of_length_le hpre.length_le)

theorem Truncated.unique {t s u v : List UInt8} (h : Truncated t s) (h' : Truncated u v)
    (heq : t ++ s = u ++ v) : t = u ∧ s = v := by
  have hle {t s u v : List UInt8} (h : Truncated t s) (h' : Truncated u v)
      (heq : t ++ s = u ++ v) : u.length ≤ t.length := by
    rcases h'.short with hone | hu
    · have := List.length_pos_iff.mpr h.nonempty
      omega
    · exact h.length_le hu heq
  have hlen : t.length = u.length := Nat.le_antisymm (hle h' h heq.symm) (hle h h' heq)
  exact List.append_inj heq hlen

theorem Repaired.unique {s : List UInt8} {cs ds : List (Option Char)} (h : Repaired s cs)
    (h' : Repaired s ds) : cs = ds := by
  induction h generalizing ds with
  | nil =>
    generalize hs : ([] : List UInt8) = s at h'
    cases h' with
    | nil => rfl
    | char => exact absurd (List.append_eq_nil_iff.mp hs.symm).1 String.utf8EncodeChar_ne_nil
    | piece ht => exact absurd (List.append_eq_nil_iff.mp hs.symm).1 ht.nonempty
  | @char c s cs _ ih =>
    generalize hs : String.utf8EncodeChar c ++ s = s' at h'
    cases h' with
    | nil => exact absurd (List.append_eq_nil_iff.mp hs).1 String.utf8EncodeChar_ne_nil
    | char h' =>
      obtain ⟨rfl, rfl⟩ := char_injective hs
      rw [ih h']
    | piece ht => exact (ht.not_char hs.symm).elim
  | @piece t s cs ht _ ih =>
    generalize hs : t ++ s = s' at h'
    cases h' with
    | nil => exact absurd (List.append_eq_nil_iff.mp hs).1 ht.nonempty
    | char h' => exact (ht.not_char hs).elim
    | piece ht' h' =>
      obtain ⟨rfl, rfl⟩ := ht.unique ht' hs
      rw [ih h']

theorem repaired_encode (cs : List Char) : Repaired (encode cs) (cs.map some) := by
  induction cs with
  | nil => exact .nil
  | cons c cs ih => exact .char ih

theorem exists_repaired_pending {t : List UInt8} {q : List Range} (s : List UInt8)
    (h : Pending t q) : ∃ cs, Repaired (t ++ s) cs := by
  induction s generalizing t q with
  | nil =>
    rw [List.append_nil]
    by_cases ht : t = []
    · exact ⟨[], ht ▸ .nil⟩
    · exact ⟨[none], by simpa using Repaired.piece (h.truncated_end ht) .nil⟩
  | cons b s ih =>
    have hnext {t : List UInt8} {q q' : List Range} (h : Pending t q)
        (hn : Utf8.next q b = some q') : ∃ cs, Repaired (t ++ b :: s) cs := by
      obtain ⟨-, c, hc⟩ | ⟨-, hp⟩ := h.step hn
      · obtain ⟨cs, hcs⟩ := ih .start
        exact ⟨some c :: cs, by simpa [← hc] using Repaired.char (c := c) hcs⟩
      · simpa using ih hp
    have hstart : ∃ cs, Repaired (b :: s) cs := by
      cases hn : Utf8.next [] b with
      | some q' => exact hnext .start hn
      | none =>
        obtain ⟨-, hb⟩ | ⟨hne, -⟩ := Pending.start.truncated (t := s) hn
        · obtain ⟨cs, hcs⟩ := ih .start
          exact ⟨none :: cs, .piece hb hcs⟩
        · exact absurd rfl hne
    cases hn : Utf8.next q b with
    | some q' => exact hnext h hn
    | none =>
      obtain ⟨rfl, -⟩ | ⟨-, ht⟩ := h.truncated (t := s) hn
      · exact hstart
      · obtain ⟨cs, hcs⟩ := hstart
        exact ⟨none :: cs, .piece ht hcs⟩

theorem exists_repaired (s : List UInt8) : ∃ cs, Repaired s cs :=
  exists_repaired_pending s .start

noncomputable def repair (s : List UInt8) : List (Option Char) := (exists_repaired s).choose

theorem repaired_repair (s : List UInt8) : Repaired s (repair s) := (exists_repaired s).choose_spec

theorem repair_encode (cs : List Char) : repair (encode cs) = cs.map some :=
  (repaired_repair _).unique (repaired_encode cs)

/-- A valid sequence needs no repair, and any other does. -/
theorem repaired_valid {s : List UInt8} {cs : List (Option Char)} (h : Repaired s cs) :
    none ∉ cs ↔ ∃ ds, s = encode ds ∧ cs = ds.map some := by
  constructor
  · intro hno
    induction h with
    | nil => exact ⟨[], rfl, rfl⟩
    | @char c s cs _ ih =>
      obtain ⟨ds, rfl, rfl⟩ := ih fun hmem => hno (List.mem_cons_of_mem _ hmem)
      exact ⟨c :: ds, rfl, rfl⟩
    | piece => exact absurd List.mem_cons_self hno
  · rintro ⟨ds, rfl, rfl⟩
    simp

end Utf8
