import Mathlib.Data.Nat.Digits.Lemmas
import WebrtcNativeDemo.JsonTokens

/-!
# Integers in the output of the serializer

`dump_integer` of `nlohmann/json.hpp`: it counts the digits first, then fills
`number_buffer` from the end, two digits at a time.
-/

namespace WebrtcNativeDemo.Serializer

theorem div_toNat_lt {x : UInt64} {k : ℕ} (hk : 1 < k) (hk' : k < 2 ^ 64) (hx : 0 < x.toNat) :
    (x / UInt64.ofNat k).toNat < x.toNat := by
  rw [UInt64.toNat_div, UInt64.toNat_ofNat', Nat.mod_eq_of_lt hk']
  exact Nat.div_lt_self hx hk

def countDigits (x : UInt64) (nDigits : ℕ) : ℕ :=
  if x < 10 then nDigits
  else if x < 100 then nDigits + 1
  else if x < 1000 then nDigits + 2
  else if x < 10000 then nDigits + 3
  else countDigits (x / 10000) (nDigits + 4)
termination_by x.toNat
decreasing_by
  rename_i h _ _ _
  rw [UInt64.lt_iff_toNat_lt] at h
  exact div_toNat_lt (k := 10000) (by decide) (by decide) (by simp at h; omega)

def removeSign (x : Int64) : UInt64 := (-(x + 1)).toUInt64 + 1

/-- An entry of `digits_to_99`. -/
def digitsTo99 (i : UInt64) : UInt8 × UInt8 :=
  ((0x30 : UInt8) + (i / 10).toUInt8, (0x30 : UInt8) + (i % 10).toUInt8)

/-- Fills the buffer backward from `bufferPtr`. -/
def storeDigits (numberBuffer : Bytes) (bufferPtr : ℕ) (absValue : UInt64) : Bytes :=
  if 100 ≤ absValue then
    let digits := digitsTo99 (absValue % 100)
    storeDigits ((numberBuffer.set (bufferPtr - 1) digits.2).set (bufferPtr - 2) digits.1)
      (bufferPtr - 2) (absValue / 100)
  else if 10 ≤ absValue then
    let digits := digitsTo99 absValue
    (numberBuffer.set (bufferPtr - 1) digits.2).set (bufferPtr - 2) digits.1
  else numberBuffer.set (bufferPtr - 1) (0x30 + absValue.toUInt8)
termination_by absValue.toNat
decreasing_by
  rename_i h
  rw [UInt64.le_iff_toNat_le] at h
  exact div_toNat_lt (k := 100) (by decide) (by decide) (by simp at h; omega)

/-- What is written of `number_buffer`, whatever was in it before. -/
def dumpUnsigned (numberBuffer : Bytes) (x : UInt64) : Bytes :=
  if x = 0 then [0x30]
  else
    let nChars := countDigits x 1
    (storeDigits numberBuffer nChars x).take nChars

def dumpInteger (numberBuffer : Bytes) (x : Int64) : Bytes :=
  if x = 0 then [0x30]
  else if x < 0 then
    let numberBuffer := numberBuffer.set 0 0x2D
    let absValue := removeSign x
    let nChars := 1 + countDigits absValue 1
    (storeDigits numberBuffer nChars absValue).take nChars
  else
    let absValue := x.toUInt64
    let nChars := countDigits absValue 1
    (storeDigits numberBuffer nChars absValue).take nChars

/-! ### Decimal digits -/

def digit (d : ℕ) : UInt8 := UInt8.ofNat (0x30 + d)

def decimal (n : ℕ) : Bytes := if n = 0 then [0x30] else (Nat.digits 10 n).reverse.map digit

theorem decimal_of_lt {n : ℕ} (h : n < 10) : decimal n = [digit n] := by
  by_cases hn : n = 0
  · subst hn
    rfl
  · rw [decimal, if_neg hn, Nat.digits_of_lt 10 n hn h]
    rfl

theorem decimal_div {n : ℕ} (h : 10 ≤ n) : decimal n = decimal (n / 10) ++ [digit (n % 10)] := by
  rw [decimal, decimal, if_neg (by omega), if_neg (by omega),
    Nat.digits_def' (by decide) (by omega)]
  simp

theorem decimal_length_pos (n : ℕ) : 0 < (decimal n).length := by
  by_cases h : n < 10
  · simp [decimal_of_lt h]
  · simp [decimal_div (by omega : 10 ≤ n)]

theorem decimal_length_div {n : ℕ} (h : 10 ≤ n) :
    (decimal n).length = (decimal (n / 10)).length + 1 := by
  rw [decimal_div h, List.length_append]
  rfl

theorem countDigits_eq (x : UInt64) (nDigits : ℕ) :
    countDigits x nDigits + 1 = nDigits + (decimal x.toNat).length := by
  fun_induction countDigits x nDigits with
  | case1 x nDigits h =>
    simp only [UInt64.lt_iff_toNat_lt, UInt64.reduceToNat] at h
    rw [decimal_of_lt h]
    rfl
  | case2 x nDigits h1 h =>
    simp only [UInt64.lt_iff_toNat_lt, UInt64.reduceToNat] at h1 h
    rw [decimal_length_div (by omega), decimal_of_lt (by omega)]
    rfl
  | case3 x nDigits h1 h2 h =>
    simp only [UInt64.lt_iff_toNat_lt, UInt64.reduceToNat] at h1 h2 h
    rw [decimal_length_div (by omega), decimal_length_div (by omega), decimal_of_lt (by omega)]
    rfl
  | case4 x nDigits h1 h2 h3 h =>
    simp only [UInt64.lt_iff_toNat_lt, UInt64.reduceToNat] at h1 h2 h3 h
    rw [decimal_length_div (by omega), decimal_length_div (by omega), decimal_length_div (by omega),
      decimal_of_lt (by omega)]
    rfl
  | case5 x nDigits h1 h2 h3 h4 ih =>
    simp only [UInt64.lt_iff_toNat_lt, UInt64.reduceToNat] at h1 h2 h3 h4
    have hdiv : (x / 10000).toNat = x.toNat / 10 / 10 / 10 / 10 := by
      rw [UInt64.toNat_div, Nat.div_div_eq_div_mul, Nat.div_div_eq_div_mul,
        Nat.div_div_eq_div_mul]
      rfl
    rw [ih, hdiv, decimal_length_div (n := x.toNat) (by omega),
      decimal_length_div (n := x.toNat / 10) (by omega),
      decimal_length_div (n := x.toNat / 10 / 10) (by omega),
      decimal_length_div (n := x.toNat / 10 / 10 / 10) (by omega)]
    omega

theorem digitsTo99_eq {i : UInt64} (h : i.toNat < 100) :
    digitsTo99 i = (digit (i.toNat / 10), digit (i.toNat % 10)) := by
  have hd (d : UInt64) (hd : d.toNat < 10) : (0x30 : UInt8) + d.toUInt8 = digit d.toNat := by
    rw [← UInt8.toNat_inj, digit, UInt8.toNat_add, UInt64.toNat_toUInt8, UInt8.toNat_ofNat']
    simp only [UInt8.reduceToNat]
    omega
  have hdiv : (i / 10).toNat = i.toNat / 10 := UInt64.toNat_div ..
  have hmod : (i % 10).toNat = i.toNat % 10 := UInt64.toNat_mod ..
  rw [digitsTo99, hd _ (by omega), hd _ (by omega), hdiv, hmod]

theorem set_two (s post : Bytes) (a b c d : UInt8) :
    ((s ++ a :: b :: post).set (s.length + 1) d).set s.length c = s ++ c :: d :: post := by
  simp

theorem exists_last_two {s : Bytes} {n : ℕ} (h : s.length = n + 2) :
    ∃ s' a b, s = s' ++ [a, b] ∧ s'.length = n := by
  rcases List.eq_nil_or_concat s with rfl | ⟨s, b, rfl⟩
  · cases h
  · rcases List.eq_nil_or_concat s with rfl | ⟨s, a, rfl⟩
    · simp at h
    · exact ⟨s, a, b, by simp, by simpa using h⟩

/-- The digits land where the pointer says, and nowhere else. -/
theorem storeDigits_eq {mid : Bytes} {x : UInt64} (pre post : Bytes)
    (h : mid.length = (decimal x.toNat).length) :
    storeDigits (pre ++ (mid ++ post)) (pre.length + mid.length) x =
      pre ++ (decimal x.toNat ++ post) := by
  induction hn : x.toNat using Nat.strongRecOn generalizing x mid post with
  | ind n ih =>
    subst hn
    rw [storeDigits]
    simp only [UInt64.le_iff_toNat_le, UInt64.reduceToNat]
    split_ifs with h100 h10
    · have hdiv : (x / 100).toNat = x.toNat / 10 / 10 := by
        rw [UInt64.toNat_div, Nat.div_div_eq_div_mul]
        rfl
      have hmod : (x % 100).toNat = x.toNat % 100 := UInt64.toNat_mod ..
      have hlast : decimal x.toNat = decimal (x / 100).toNat ++
          [digit ((x % 100).toNat / 10), digit ((x % 100).toNat % 10)] := by
        rw [hdiv, decimal_div (n := x.toNat) (by omega),
          decimal_div (n := x.toNat / 10) (by omega), hmod, List.append_assoc,
          show x.toNat % 100 / 10 = x.toNat / 10 % 10 by omega,
          show x.toNat % 100 % 10 = x.toNat % 10 by omega]
        rfl
      rw [hlast, List.length_append] at h
      obtain ⟨mid, a, b, rfl, hmid⟩ := exists_last_two h
      have hset := set_two (pre ++ mid) post a b (digit ((x % 100).toNat / 10))
        (digit ((x % 100).toNat % 10))
      have hlen : pre.length + (mid ++ [a, b]).length = (pre ++ mid).length + 2 := by simp; omega
      rw [digitsTo99_eq (by omega), hlen]
      simp only [Nat.add_sub_cancel]
      have hbuffer : pre ++ (mid ++ [a, b] ++ post) = pre ++ mid ++ a :: b :: post := by simp
      rw [hbuffer, show (pre ++ mid).length + 2 - 1 = (pre ++ mid).length + 1 from rfl, hset, hlast]
      have hih := ih (x / 100).toNat (by rw [hdiv]; omega)
        (digit ((x % 100).toNat / 10) :: digit ((x % 100).toNat % 10) :: post) hmid rfl
      simpa using hih
    · have hlast : decimal x.toNat = [digit (x.toNat / 10), digit (x.toNat % 10)] := by
        rw [decimal_div (by omega), decimal_of_lt (by omega)]
        rfl
      rw [hlast] at h
      obtain ⟨mid, a, b, rfl, hmid⟩ := exists_last_two (n := 0) h
      obtain rfl := List.eq_nil_of_length_eq_zero hmid
      rw [digitsTo99_eq (by omega), hlast]
      exact set_two pre post a b _ _
    · have hlast : decimal x.toNat = [digit x.toNat] := decimal_of_lt (by omega)
      rw [hlast] at h
      obtain ⟨a, rfl⟩ := List.length_eq_one_iff.mp h
      have hd : (0x30 : UInt8) + x.toUInt8 = digit x.toNat := by
        rw [← UInt8.toNat_inj, digit, UInt8.toNat_add, UInt64.toNat_toUInt8, UInt8.toNat_ofNat']
        simp only [UInt8.reduceToNat]
        omega
      rw [hd, hlast]
      simp

theorem storeDigits_take {x : UInt64} (pre numberBuffer : Bytes)
    (h : (decimal x.toNat).length ≤ numberBuffer.length) :
    (storeDigits (pre ++ numberBuffer) (pre.length + countDigits x 1) x).take
      (pre.length + countDigits x 1) = pre ++ decimal x.toNat := by
  have hcount : countDigits x 1 = (decimal x.toNat).length := by
    have := countDigits_eq x 1
    omega
  have hmid : (numberBuffer.take (decimal x.toNat).length).length = (decimal x.toNat).length :=
    List.length_take_of_le h
  have hstore := storeDigits_eq pre (numberBuffer.drop (decimal x.toNat).length) hmid
  rw [List.take_append_drop, hmid] at hstore
  rw [hcount, hstore, ← List.append_assoc, ← List.length_append, List.take_left]

/-! ### What is written -/

theorem decimal_length_le (x : UInt64) : (decimal x.toNat).length ≤ 20 := by
  by_cases hx : x.toNat = 0
  · rw [hx]
    decide
  · rw [decimal, if_neg hx, List.length_map, List.length_reverse,
      Nat.digits_length_le_iff (by decide)]
    have := x.toNat_lt
    omega

theorem dumpUnsigned_eq {numberBuffer : Bytes} (h : 20 ≤ numberBuffer.length) (x : UInt64) :
    dumpUnsigned numberBuffer x = decimal x.toNat := by
  unfold dumpUnsigned
  split_ifs with hx
  · subst hx
    rfl
  · have hlen := decimal_length_le x
    simpa using storeDigits_take (x := x) [] numberBuffer (by omega)

theorem int64_toNat (x : Int64) :
    (x.toUInt64.toNat : ℤ) = if x.toInt < 0 then x.toInt + 2 ^ 64 else x.toInt := by
  have hcond : x.toInt = if 2 * x.toUInt64.toNat < 2 ^ 64 then (x.toUInt64.toNat : ℤ)
      else (x.toUInt64.toNat : ℤ) - (2 ^ 64 : ℕ) := BitVec.toInt_eq_toNat_cond x.toBitVec
  have hlt := x.toUInt64.toNat_lt
  split_ifs at hcond ⊢ <;> omega

theorem removeSign_toNat {x : Int64} (hx : x.toInt < 0) :
    (removeSign x).toNat = x.toInt.natAbs := by
  have hneg : (removeSign x).toBitVec = -x.toBitVec := by
    have hsum : (removeSign x).toBitVec = -(x.toBitVec + 1#64) + 1#64 := rfl
    rw [hsum]
    bv_omega
  have hnat : (removeSign x).toNat = (2 ^ 64 - x.toUInt64.toNat) % 2 ^ 64 := by
    show (removeSign x).toBitVec.toNat = _
    rw [hneg, BitVec.toNat_neg]
    rfl
  have hval := int64_toNat x
  rw [if_pos hx] at hval
  have hlow := x.le_toInt
  omega

/-- Every integer is written in decimal, the least one too, whose absolute value has no
place in its own type. -/
theorem dumpInteger_eq {numberBuffer : Bytes} (h : 21 ≤ numberBuffer.length) (x : Int64) :
    dumpInteger numberBuffer x =
      (if x.toInt < 0 then [0x2D] else []) ++ decimal x.toInt.natAbs := by
  have hzero : (0 : Int64).toInt = 0 := rfl
  simp only [dumpInteger, Int64.lt_iff_toInt_lt, hzero]
  split_ifs with hx hneg hneg
  · subst hx
    exact absurd hneg (by decide)
  · subst hx
    rfl
  · rw [← removeSign_toNat hneg]
    cases numberBuffer with
    | nil => simp at h
    | cons b numberBuffer =>
      have hlen := decimal_length_le (removeSign x)
      simp only [List.length_cons] at h
      exact storeDigits_take [0x2D] numberBuffer (by omega)
  · have hval := int64_toNat x
    rw [if_neg hneg] at hval
    have habs : x.toInt.natAbs = x.toUInt64.toNat := by omega
    have hlen := decimal_length_le x.toUInt64
    rw [habs]
    simpa using storeDigits_take (x := x.toUInt64) [] numberBuffer (by omega)

/-! ### The lexer reads it back -/

theorem digit_isDigit {d : ℕ} (h : d < 10) : Lexer.IsDigit (digit d) := by
  have hall : ∀ d : Fin 10, Lexer.IsDigit (digit d) := by decide
  exact hall ⟨d, h⟩

theorem decimal_digits (n : ℕ) : ∀ d ∈ decimal n, Lexer.IsDigit d := by
  induction n using Nat.strongRecOn with
  | ind n ih =>
    by_cases hn : n < 10
    · rw [decimal_of_lt hn]
      simpa using digit_isDigit hn
    · rw [decimal_div (by omega)]
      intro d hd
      rcases List.mem_append.mp hd with hd | hd
      · exact ih (n / 10) (by omega) d hd
      · obtain rfl := List.mem_singleton.mp hd
        exact digit_isDigit (Nat.mod_lt _ (by decide))

theorem decimal_text (n : ℕ) : Lexer.IntText (decimal n) := by
  have hhead (n : ℕ) (hn : 0 < n) : (decimal n).head? ≠ some 0x30 := by
    induction n using Nat.strongRecOn with
    | ind n ih =>
      by_cases hlt : n < 10
      · rw [decimal_of_lt hlt]
        have hall : ∀ d : Fin 10, 0 < d.val → digit d ≠ 0x30 := by decide
        simpa using hall ⟨n, hlt⟩ hn
      · have hne := ih (n / 10) (by omega) (by omega)
        rw [decimal_div (by omega)]
        have hpos := decimal_length_pos (n / 10)
        cases hd : decimal (n / 10) with
        | nil => simp [hd] at hpos
        | cons b s => simpa [hd] using hne
  refine ⟨⟨List.length_pos_iff.mp (decimal_length_pos n), decimal_digits n⟩, ?_⟩
  intro h
  by_cases hn : n = 0
  · subst hn
    rfl
  · exact absurd h (hhead n (by omega))

theorem digitsValue_decimal (n : ℕ) : Lexer.digitsValue (decimal n) = n := by
  have hval {d : ℕ} (h : d < 10) : (digit d).toNat - 0x30 = d := by
    have hall : ∀ d : Fin 10, (digit d).toNat - 0x30 = d.val := by decide
    exact hall ⟨d, h⟩
  induction n using Nat.strongRecOn with
  | ind n ih =>
    by_cases hn : n < 10
    · rw [decimal_of_lt hn]
      simp [Lexer.digitsValue, hval hn]
    · rw [decimal_div (by omega), Lexer.digitsValue, List.foldl_append]
      have := ih (n / 10) (by omega)
      rw [Lexer.digitsValue] at this
      rw [this, List.foldl_cons, List.foldl_nil, hval (Nat.mod_lt _ (by decide))]
      omega

end WebrtcNativeDemo.Serializer
