import WebrtcNativeDemo.JsonLexer

/-!
# Strings in a JSON text

What `scan_string` reads, against the grammar of a string (RFC 8259, section 7): a list
of characters, each in one of its spellings. The buffer holds their UTF-8 encodings,
whatever the spellings were.
-/

namespace WebrtcNativeDemo.Lexer

open String (utf8EncodeChar)

inductive HexText : Bytes → ℕ → Prop
  | intro {a b c d : UInt8} {w x y z : ℕ} (ha : hexDigit a = some w) (hb : hexDigit b = some x)
      (hc : hexDigit c = some y) (hd : hexDigit d = some z) :
      HexText [a, b, c, d] (w * 0x1000 + x * 0x100 + y * 0x10 + z)

/-- The spellings of a character in a string. -/
inductive CharText : Bytes → Char → Prop
  | plain {c : Char} (h : 0x20 ≤ c.toNat) (hq : c.toNat ≠ 0x22) (hb : c.toNat ≠ 0x5C) :
      CharText (utf8EncodeChar c) c
  | short {b r : UInt8} {c : Char} (h : escaped b = some r) (hc : c.toNat = r.toNat) :
      CharText [0x5C, b] c
  | unicode {ds : Bytes} {c : Char} (h : HexText ds c.toNat) : CharText (0x5C :: 0x75 :: ds) c
  | pair {ds es : Bytes} {high low : ℕ} {c : Char} (hds : HexText ds high) (hes : HexText es low)
      (hhigh : 0xD800 ≤ high ∧ high ≤ 0xDBFF) (hlow : 0xDC00 ≤ low ∧ low ≤ 0xDFFF)
      (hc : c.toNat = 0x10000 + (high - 0xD800) * 0x400 + (low - 0xDC00)) :
      CharText (0x5C :: 0x75 :: (ds ++ 0x5C :: 0x75 :: es)) c

inductive StringText : Bytes → List Char → Prop
  | nil : StringText [] []
  | cons {text texts : Bytes} {c : Char} {cs : List Char} (h : CharText text c)
      (hs : StringText texts cs) : StringText (text ++ texts) (c :: cs)

theorem map_eq_ok {ε α β : Type} {x : Except ε α} {f : α → β} {b : β} :
    x.map f = .ok b ↔ ∃ a, x = .ok a ∧ f a = b := by
  cases x with
  | error e => simp [Except.map]
  | ok a => simp [Except.map]

/-! ### Code points -/

theorem hexDigit_lt {b : UInt8} {d : ℕ} (h : hexDigit b = some d) : d < 16 := by
  simp only [hexDigit, UInt8.le_iff_toNat_le, UInt8.reduceToNat] at h
  split_ifs at h <;> obtain rfl := Option.some.inj h <;> omega

theorem getCodepointFrom_cons {factor codepoint n : ℕ} {factors : List ℕ} {input rest : Bytes} :
    getCodepointFrom (factor :: factors) codepoint input = some (n, rest) ↔
      ∃ b d input', input = b :: input' ∧ hexDigit b = some d ∧
        getCodepointFrom factors (codepoint + d <<< factor) input' = some (n, rest) := by
  cases input with
  | nil => simp [getCodepointFrom]
  | cons b input => simp [getCodepointFrom, Option.bind_eq_some_iff]

theorem getCodepoint_eq_some {input rest : Bytes} {n : ℕ} :
    getCodepoint input = some (n, rest) ↔ ∃ ds, HexText ds n ∧ input = ds ++ rest := by
  simp only [getCodepoint, getCodepointFrom_cons]
  constructor
  · rintro ⟨a, w, _, rfl, ha, b, x, _, rfl, hb, c, y, _, rfl, hc, d, z, input, rfl, hd, h⟩
    obtain ⟨rfl, rfl⟩ := Prod.mk.inj (Option.some.inj h)
    refine ⟨[a, b, c, d], ?_, rfl⟩
    convert HexText.intro ha hb hc hd using 1
    simp only [Nat.shiftLeft_eq]
    omega
  · rintro ⟨ds, hds, rfl⟩
    cases hds with
    | @intro a b c d w x y z ha hb hc hd =>
      refine ⟨a, w, _, rfl, ha, b, x, _, rfl, hb, c, y, _, rfl, hc, d, z, _, rfl, hd, ?_⟩
      simp only [getCodepointFrom, Nat.shiftLeft_eq]
      congr 2
      omega

theorem HexText.lt {ds : Bytes} {n : ℕ} (h : HexText ds n) : n < 0x10000 := by
  cases h with
  | intro ha hb hc hd =>
    have := hexDigit_lt ha
    have := hexDigit_lt hb
    have := hexDigit_lt hc
    have := hexDigit_lt hd
    omega

theorem or_eq_add {p n : ℕ} (i : ℕ) (hp : p % 2 ^ i = 0) (hn : n < 2 ^ i) : p ||| n = n + p := by
  have hor := Nat.two_pow_add_eq_or_of_lt hn (p / 2 ^ i)
  have hdiv : 2 ^ i * (p / 2 ^ i) = p := Nat.mul_div_cancel' (Nat.dvd_of_mod_eq_zero hp)
  rw [hdiv] at hor
  omega

theorem tail_or (n : ℕ) : 0x80 ||| (n &&& 0x3F) = n % 0x40 + 0x80 := by
  have hand : n &&& 0x3F = n % 0x40 := Nat.and_two_pow_sub_one_eq_mod n 6
  rw [hand]
  exact or_eq_add 6 rfl (by omega)

theorem ofNat_congr {m n : ℕ} (h : m % 256 = n % 256) : UInt8.ofNat m = UInt8.ofNat n := by
  rw [← UInt8.toNat_inj, UInt8.toNat_ofNat', UInt8.toNat_ofNat']
  exact h

theorem addCodepoint_toNat (c : Char) : addCodepoint c.toNat = utf8EncodeChar c := by
  have hc : c.val.toNat < 0xD800 ∨ 0xDFFF < c.val.toNat ∧ c.val.toNat < 0x110000 := c.valid
  show addCodepoint c.val.toNat = _
  simp only [addCodepoint, utf8EncodeChar, tail_or, Nat.shiftRight_eq_div_pow]
  generalize c.val.toNat = v at hc ⊢
  by_cases h1 : v ≤ 0x7F
  · rw [if_pos (by omega), if_pos h1]
  · rw [if_neg (by omega), if_neg h1]
    split_ifs with h2 h3
    · rw [or_eq_add 5 rfl (by omega)]
      congr 1
      exact ofNat_congr (by omega)
    · rw [or_eq_add 4 rfl (by omega)]
      congr 1
      exact ofNat_congr (by omega)
    · rw [or_eq_add 3 rfl (by omega)]
      congr 1
      exact ofNat_congr (by omega)

/-! ### Escapes -/

theorem exists_toNat {n : ℕ} (h : n < 0xD800 ∨ 0xDFFF < n ∧ n < 0x110000) :
    ∃ c : Char, c.toNat = n := Utf8.exists_toNat h

theorem scanUnicode_sound {input added rest : Bytes}
    (h : scanUnicode input = .ok (added, rest)) :
    ∃ text c, input = text ++ rest ∧ CharText (0x5C :: 0x75 :: text) c ∧
      added = utf8EncodeChar c := by
  simp only [scanUnicode] at h
  split at h
  · cases h
  · rename_i n input' hn
    obtain ⟨ds, hds, rfl⟩ := getCodepoint_eq_some.mp hn
    have hlt := hds.lt
    split_ifs at h with hhigh hlow
    · unfold scanLowSurrogate at h
      split at h
      · rename_i low
        split at h
        · cases h
        · rename_i m input'' hm
          obtain ⟨es, hes, rfl⟩ := getCodepoint_eq_some.mp hm
          split_ifs at h with hlow
          · obtain ⟨rfl, rfl⟩ := Prod.mk.inj (Except.ok.inj h)
            have hval : (n <<< 10) + m - 0x35FDC00 = 0x10000 + (n - 0xD800) * 0x400 +
                (m - 0xDC00) := by
              rw [Nat.shiftLeft_eq]
              omega
            obtain ⟨c, hc⟩ := exists_toNat (n := (n <<< 10) + m - 0x35FDC00) (by omega)
            refine ⟨ds ++ 0x5C :: 0x75 :: es, c, by simp,
              .pair hds hes hhigh hlow (hc.trans hval), ?_⟩
            rw [← hc, addCodepoint_toNat]
      · cases h
    · obtain ⟨rfl, rfl⟩ := Prod.mk.inj (Except.ok.inj h)
      obtain ⟨c, rfl⟩ := exists_toNat (n := n) (by omega)
      exact ⟨ds, c, rfl, .unicode hds, addCodepoint_toNat c⟩

theorem scanUnicode_unicode {ds rest : Bytes} {c : Char} (h : HexText ds c.toNat) :
    scanUnicode (ds ++ rest) = .ok (utf8EncodeChar c, rest) := by
  have hcode : getCodepoint (ds ++ rest) = some (c.toNat, rest) :=
    getCodepoint_eq_some.mpr ⟨ds, h, rfl⟩
  have hc : c.toNat < 0xD800 ∨ 0xDFFF < c.toNat ∧ c.toNat < 0x110000 := c.valid
  simp only [scanUnicode, hcode]
  rw [if_neg (by omega), if_neg (by omega), addCodepoint_toNat]

theorem scanUnicode_pair {ds es rest : Bytes} {high low : ℕ} {c : Char} (hds : HexText ds high)
    (hes : HexText es low) (hhigh : 0xD800 ≤ high ∧ high ≤ 0xDBFF)
    (hlow : 0xDC00 ≤ low ∧ low ≤ 0xDFFF)
    (hc : c.toNat = 0x10000 + (high - 0xD800) * 0x400 + (low - 0xDC00)) :
    scanUnicode (ds ++ 0x5C :: 0x75 :: es ++ rest) = .ok (utf8EncodeChar c, rest) := by
  have hcode : getCodepoint (ds ++ 0x5C :: 0x75 :: es ++ rest) =
      some (high, 0x5C :: 0x75 :: (es ++ rest)) :=
    getCodepoint_eq_some.mpr ⟨ds, hds, by simp⟩
  have hcode' : getCodepoint (es ++ rest) = some (low, rest) :=
    getCodepoint_eq_some.mpr ⟨es, hes, rfl⟩
  have hval : (high <<< 10) + low - 0x35FDC00 = c.toNat := by
    rw [hc, Nat.shiftLeft_eq]
    omega
  simp only [scanUnicode, hcode]
  rw [if_pos hhigh]
  simp only [scanLowSurrogate, hcode']
  rw [if_pos hlow, hval, addCodepoint_toNat]

theorem escaped_lt {b r : UInt8} (h : escaped b = some r) : r.toNat < 0x80 := by
  simp only [escaped] at h
  split_ifs at h with h1 h2 h3 h4 h5 h6 <;> obtain rfl := Option.some.inj h
  · rcases h1 with rfl | rfl | rfl <;> decide
  all_goals decide

theorem utf8EncodeChar_of_lt {b : UInt8} {c : Char} (h : b.toNat < 0x80) (hc : c.toNat = b.toNat) :
    utf8EncodeChar c = [b] := by
  have hle : c.val.toNat ≤ 0x7F := by
    show c.toNat ≤ 0x7F
    omega
  simp only [utf8EncodeChar, if_pos hle]
  rw [show c.val.toNat = b.toNat from hc, UInt8.ofNat_toNat]

theorem scanEscape_sound {input added rest : Bytes}
    (h : scanEscape input = .ok (added, rest)) :
    ∃ text c, input = text ++ rest ∧ CharText (0x5C :: text) c ∧ added = utf8EncodeChar c := by
  cases input with
  | nil => cases h
  | cons b input =>
    simp only [scanEscape] at h
    cases he : escaped b with
    | some r =>
      simp only [he] at h
      obtain ⟨rfl, rfl⟩ := Prod.mk.inj (Except.ok.inj h)
      have hlt := escaped_lt he
      obtain ⟨c, hc⟩ := exists_toNat (n := r.toNat) (by omega)
      exact ⟨[b], c, rfl, .short he hc, (utf8EncodeChar_of_lt hlt hc).symm⟩
    | none =>
      simp only [he] at h
      split_ifs at h with hu
      obtain ⟨text, c, rfl, htext, hadd⟩ := scanUnicode_sound h
      exact ⟨0x75 :: text, c, by rw [hu]; rfl, htext, hadd⟩

/-! ### One character -/

theorem nextByteInRange_eq_ok {p : List Utf8.Range} {input added rest : Bytes} :
    nextByteInRange p input = .ok (added, rest) ↔
      input = added ++ rest ∧ added.length = p.length ∧ Utf8.run p added = some [] := by
  induction p generalizing input added with
  | nil =>
    constructor
    · intro h
      obtain ⟨rfl, rfl⟩ := Prod.mk.inj (Except.ok.inj h)
      exact ⟨rfl, rfl, rfl⟩
    · rintro ⟨rfl, hlen, -⟩
      obtain rfl := List.eq_nil_of_length_eq_zero hlen
      rfl
  | cons r p ih =>
    constructor
    · intro h
      cases input with
      | nil => cases h
      | cons b input =>
        simp only [nextByteInRange] at h
        split_ifs at h with hb
        obtain ⟨⟨added', rest'⟩, hn, heq⟩ := map_eq_ok.mp h
        obtain ⟨rfl, rfl⟩ := Prod.mk.inj heq
        obtain ⟨rfl, hlen, hrun⟩ := ih.mp hn
        exact ⟨rfl, by simp [hlen], by simp [Utf8.run, Utf8.next, hb, hrun]⟩
    · rintro ⟨rfl, hlen, hrun⟩
      obtain ⟨b, t, rfl, hb, ht⟩ := Utf8.run_pending hrun
      have hn := ih.mpr ⟨rfl, by simpa using hlen, ht⟩
      simp only [List.cons_append, nextByteInRange, if_pos hb, hn]
      rfl

/-- The lexer knows the first bytes of the characters that need no escape. -/
theorem byteRanges_eq {b : UInt8} (h : ¬ b ≤ 0x1F) : byteRanges b = Utf8.ranges b := by
  have hall : ∀ n : Fin 256, 0x1F < n.val →
      byteRanges (UInt8.ofNat n) = Utf8.ranges (UInt8.ofNat n) := by
    decide +kernel
  have hb := hall ⟨b.toNat, b.toNat_lt⟩ (by rw [UInt8.le_iff_toNat_le] at h; simpa using h)
  rwa [UInt8.ofNat_toNat] at hb

theorem encodes_lt {b : UInt8} {s : Bytes} {c : Char} (h : b :: s = utf8EncodeChar c)
    (hb : b.toNat < 0x80) : c.toNat = b.toNat := by
  have hc : c.val.toNat < 0xD800 ∨ 0xDFFF < c.val.toNat ∧ c.val.toNat < 0x110000 := c.valid
  show c.val.toNat = b.toNat
  simp only [utf8EncodeChar] at h
  split_ifs at h <;> obtain ⟨rfl, -⟩ := List.cons.inj h <;>
    simp only [UInt8.toNat_ofNat'] at hb ⊢ <;> omega

theorem scanChar_sound {input added rest : Bytes} (h : scanChar input = .ok (some added, rest)) :
    ∃ text c, input = text ++ rest ∧ CharText text c ∧ added = utf8EncodeChar c := by
  cases input with
  | nil => cases h
  | cons b input =>
    simp only [scanChar] at h
    split_ifs at h with hq hs hc
    · cases h
    · obtain ⟨⟨added', rest'⟩, he, heq⟩ := map_eq_ok.mp h
      cases heq
      obtain ⟨text, c, rfl, htext, hadd⟩ := scanEscape_sound he
      exact ⟨0x5C :: text, c, by rw [hs]; rfl, htext, hadd⟩
    · rw [byteRanges_eq hc] at h
      split at h
      · cases h
      · rename_i p hp
        obtain ⟨⟨added', rest'⟩, hn, heq⟩ := map_eq_ok.mp h
        cases heq
        obtain ⟨rfl, hlen, hrun⟩ := nextByteInRange_eq_ok.mp hn
        obtain ⟨c, henc⟩ := Utf8.exists_char ⟨p, hp, hlen, hrun⟩
        refine ⟨b :: added', c, rfl, ?_, henc⟩
        rw [henc]
        rw [UInt8.le_iff_toNat_le] at hc
        rw [← UInt8.toNat_inj] at hq hs
        simp only [UInt8.reduceToNat] at hc hq hs
        by_cases hb : b.toNat < 0x80
        · have hval := encodes_lt henc hb
          exact .plain (by omega) (by omega) (by omega)
        · have hval : 0x80 ≤ c.toNat := by
            by_contra hno
            have hone : utf8EncodeChar c = [UInt8.ofNat c.toNat] := by
              simp only [utf8EncodeChar]
              rw [if_pos (by show c.toNat ≤ 0x7F; omega)]
              rfl
            rw [hone] at henc
            obtain ⟨rfl, -⟩ := List.cons.inj henc
            rw [UInt8.toNat_ofNat'] at hb
            omega
          exact .plain (by omega) (by omega) (by omega)

theorem scanChar_text {text rest : Bytes} {c : Char} (h : CharText text c) :
    scanChar (text ++ rest) = .ok (some (utf8EncodeChar c), rest) := by
  cases h with
  | plain h hq hb =>
    obtain ⟨b, s, henc, p, hp, hlen, hrun⟩ := Utf8.encodes_char c
    have hn : nextByteInRange p (s ++ rest) = .ok (s, rest) :=
      nextByteInRange_eq_ok.mpr ⟨rfl, hlen, hrun⟩
    have hb' : b.toNat < 0x80 → c.toNat = b.toNat := encodes_lt henc.symm
    have h1 : b ≠ 0x22 := by
      rintro rfl
      exact hq (hb' (by decide))
    have h2 : b ≠ 0x5C := by
      rintro rfl
      exact hb (hb' (by decide))
    have h3 : ¬ b ≤ 0x1F := by
      intro hle
      simp only [UInt8.le_iff_toNat_le, UInt8.reduceToNat] at hle
      have := hb' (by omega)
      omega
    rw [henc, List.cons_append]
    simp only [scanChar, if_neg h1, if_neg h2, if_neg h3, byteRanges_eq h3, hp, hn]
    rfl
  | @short b r _ h hc =>
    have hlt := escaped_lt h
    rw [utf8EncodeChar_of_lt hlt hc]
    simp only [List.cons_append, List.nil_append, scanChar, scanEscape, h]
    rfl
  | unicode h =>
    have hu := @scanUnicode_unicode _ rest _ h
    simp only [List.cons_append, scanChar, scanEscape]
    rw [show escaped 0x75 = none from rfl]
    simp only [hu, if_true]
    rfl
  | pair hds hes hhigh hlow hc =>
    have hu := @scanUnicode_pair _ _ rest _ _ _ hds hes hhigh hlow hc
    simp only [List.cons_append, scanChar, scanEscape]
    rw [show escaped 0x75 = none from rfl]
    simp only [List.append_assoc, List.cons_append] at hu ⊢
    simp only [hu, if_true]
    rfl

theorem scanChar_quote {input rest : Bytes} :
    scanChar input = .ok (none, rest) ↔ input = 0x22 :: rest := by
  constructor
  · intro h
    cases input with
    | nil => cases h
    | cons b input =>
      simp only [scanChar] at h
      split_ifs at h with hq hs hc
      · cases h
        rw [hq]
      · obtain ⟨x, -, heq⟩ := map_eq_ok.mp h
        cases heq
      · split at h
        · cases h
        · obtain ⟨x, -, heq⟩ := map_eq_ok.mp h
          cases heq
  · rintro rfl
    rfl

/-! ### The whole string -/

theorem CharText.ne_nil {text : Bytes} {c : Char} (h : CharText text c) : text ≠ [] := by
  cases h with
  | plain => exact String.utf8EncodeChar_ne_nil
  | short | unicode | pair => simp

theorem scanStringFrom_sound {turns : ℕ} {buffer input s rest : Bytes}
    (h : scanStringFrom turns buffer input = .ok (s, rest)) :
    ∃ text cs, input = text ++ 0x22 :: rest ∧ StringText text cs ∧
      s = buffer ++ Utf8.encode cs := by
  induction turns generalizing buffer input with
  | zero => cases h
  | succ turns ih =>
    simp only [scanStringFrom] at h
    split at h
    · cases h
    · rename_i hscan
      cases h
      exact ⟨[], [], scanChar_quote.mp hscan, .nil, by simp⟩
    · rename_i added input' hscan
      obtain ⟨text, c, rfl, htext, rfl⟩ := scanChar_sound hscan
      obtain ⟨texts, cs, rfl, htexts, rfl⟩ := ih h
      exact ⟨text ++ texts, c :: cs, by simp, .cons htext htexts, by simp⟩

theorem scanStringFrom_text {turns : ℕ} {buffer text rest : Bytes} {cs : List Char}
    (h : StringText text cs) (hturns : text.length < turns) :
    scanStringFrom turns buffer (text ++ 0x22 :: rest) = .ok (buffer ++ Utf8.encode cs, rest) := by
  induction h generalizing turns buffer with
  | nil =>
    obtain ⟨turns, rfl⟩ := Nat.exists_eq_add_of_lt hturns
    simp [scanStringFrom, scanChar]
  | @cons text texts c cs hc _ ih =>
    have hpos := List.length_pos_iff.mpr hc.ne_nil
    rw [List.length_append] at hturns
    obtain ⟨turns, rfl⟩ : ∃ n, turns = n + 1 := ⟨turns - 1, by omega⟩
    rw [List.append_assoc]
    simp only [scanStringFrom, scanChar_text hc]
    rw [ih (by omega)]
    simp

theorem scanString_sound {input s rest : Bytes} (h : scanString input = .ok (s, rest)) :
    ∃ text cs, input = text ++ 0x22 :: rest ∧ StringText text cs ∧ s = Utf8.encode cs :=
  scanStringFrom_sound h

theorem scanString_text {text rest : Bytes} {cs : List Char} (h : StringText text cs) :
    scanString (text ++ 0x22 :: rest) = .ok (Utf8.encode cs, rest) := by
  apply scanStringFrom_text h
  rw [List.length_append]
  omega

/-- `scan_string` accepts exactly the strings of the grammar, and its buffer then holds
their characters in UTF-8. -/
theorem scanString_eq_ok {input s rest : Bytes} :
    scanString input = .ok (s, rest) ↔
      ∃ text cs, input = text ++ 0x22 :: rest ∧ StringText text cs ∧ s = Utf8.encode cs := by
  constructor
  · exact scanString_sound
  · rintro ⟨text, cs, rfl, htext, rfl⟩
    exact scanString_text htext

end WebrtcNativeDemo.Lexer
