import WebrtcNativeDemo.JsonNumbers

/-!
# The tokens of a JSON text

What `scan` reads: white space, then one token in a spelling of its own. Only a number
depends on what comes behind it.
-/

namespace WebrtcNativeDemo.Lexer

variable {F : Type} (lib : FloatLib F)

def Whitespace (ws : Bytes) : Prop := ∀ b ∈ ws, isWhitespace b = true

inductive TokenText : Bytes → Token F → Prop
  | beginArray : TokenText [0x5B] .beginArray
  | endArray : TokenText [0x5D] .endArray
  | beginObject : TokenText [0x7B] .beginObject
  | endObject : TokenText [0x7D] .endObject
  | nameSeparator : TokenText [0x3A] .nameSeparator
  | valueSeparator : TokenText [0x2C] .valueSeparator
  | literalTrue : TokenText [0x74, 0x72, 0x75, 0x65] .literalTrue
  | literalFalse : TokenText [0x66, 0x61, 0x6C, 0x73, 0x65] .literalFalse
  | literalNull : TokenText [0x6E, 0x75, 0x6C, 0x6C] .literalNull
  | string {text : Bytes} {cs : List Char} (h : StringText text cs) :
      TokenText (0x22 :: (text ++ [0x22])) (.valueString (Utf8.encode cs))
  | number {text : Bytes} {type : NumberType} (h : NumberText text type) :
      TokenText text (convert lib text type)

/-- Nothing is left, or a null byte and whatever is behind it. -/
def AtEnd (input : Bytes) : Prop := ∀ b ∈ input.head?, b = 0

/-- Behind `text` another token begins, or what was a number goes on. -/
def Separated (text rest : Bytes) : Prop := ∀ type, NumberText text type → Stops text rest

/-! ### White space -/

theorem skipWhitespace_append {ws input : Bytes} (hws : Whitespace ws)
    (h : ∀ b ∈ input.head?, isWhitespace b = false) : skipWhitespace (ws ++ input) = input := by
  rw [skipWhitespace, List.dropWhile_append_of_pos hws]
  cases input with
  | nil => rfl
  | cons b input =>
    have hb := h b rfl
    exact List.dropWhile_cons_of_neg (by simp [hb])

theorem skipWhitespace_spec (input : Bytes) :
    ∃ ws, Whitespace ws ∧ input = ws ++ skipWhitespace input ∧
      ∀ b ∈ (skipWhitespace input).head?, isWhitespace b = false := by
  refine ⟨input.takeWhile isWhitespace, ?_, (List.takeWhile_append_dropWhile).symm, ?_⟩
  · intro b hb
    exact List.all_eq_true.mp List.all_takeWhile b hb
  · intro b hb
    have hnot := List.head?_dropWhile_not isWhitespace input
    rw [skipWhitespace] at hb
    rw [Option.mem_def.mp hb] at hnot
    simpa using hnot

theorem whitespace_nil : Whitespace [] := by simp [Whitespace]

theorem Whitespace.append {ws ws' : Bytes} (h : Whitespace ws) (h' : Whitespace ws') :
    Whitespace (ws ++ ws') := by
  intro b hb
  obtain hb | hb := List.mem_append.mp hb
  exacts [h b hb, h' b hb]

/-! ### Literals -/

theorem scanLiteral_eq_ok {token token' : Token F} {text input rest : Bytes} :
    scanLiteral token text input = .ok (token', rest) ↔ input = text ++ rest ∧ token' = token := by
  induction text generalizing input with
  | nil =>
    simp only [scanLiteral, Except.ok.injEq, Prod.mk.injEq, List.nil_append]
    exact ⟨fun h => ⟨h.2, h.1.symm⟩, fun h => ⟨h.2.symm, h.1⟩⟩
  | cons c text ih =>
    cases input with
    | nil => simp [scanLiteral]
    | cons b input =>
      simp only [scanLiteral, List.cons_append, List.cons.injEq]
      split_ifs with hb
      · rw [ih]
        simp [hb]
      · simp [hb]

/-! ### The first byte of a token -/

theorem NumberText.cons {text : Bytes} {type : NumberType} (h : NumberText text type) :
    ∃ b u, text = b :: u ∧ NumberStart b := by
  cases h with
  | @unsigned int _ _ hint =>
    cases int with
    | nil => exact absurd rfl hint.nonempty
    | cons b u => exact ⟨b, _, rfl, .inr (intText_cons.mp hint).1⟩
  | integer => exact ⟨0x2D, _, rfl, .inl rfl⟩

variable {lib}

theorem TokenText.length_pos {text : Bytes} {token : Token F} (h : TokenText lib text token) :
    0 < text.length := by
  cases h with
  | number h =>
    obtain ⟨b, u, rfl, -⟩ := h.cons
    simp
  | _ => simp

theorem not_numberText {b : UInt8} {u : Bytes} {type : NumberType}
    (hb : ¬ NumberStart b) : ¬ NumberText (b :: u) type := by
  intro h
  obtain ⟨c, v, heq, hc⟩ := h.cons
  obtain ⟨rfl, -⟩ := List.cons.inj heq
  exact hb hc

instance (b : UInt8) : Decidable (NumberStart b) := inferInstanceAs (Decidable (_ ∨ _))

theorem separated_of_not_start {b : UInt8} {u rest : Bytes} (hb : ¬ NumberStart b) :
    Separated (b :: u) rest :=
  fun _ h => absurd h (not_numberText hb)

theorem numberStart_ne {b c : UInt8} (hb : NumberStart b) (hc : ¬ NumberStart c) : b ≠ c :=
  fun h => hc (h ▸ hb)

theorem convert_cases (lib : FloatLib F) (text : Bytes) (type : NumberType) :
    (∃ u, convert lib text type = .valueUnsigned u) ∨
      (∃ i, convert lib text type = .valueInteger i) ∨
      ∃ x, convert lib text type = .valueFloat x := by
  cases type with
  | unsigned => cases h : strtoull text <;> simp [convert, h]
  | integer => cases h : strtoll text <;> simp [convert, h]
  | float => simp [convert]

def punctuation : Token F → Option UInt8
  | .beginArray => some 0x5B
  | .endArray => some 0x5D
  | .beginObject => some 0x7B
  | .endObject => some 0x7D
  | .nameSeparator => some 0x3A
  | .valueSeparator => some 0x2C
  | _ => none

theorem TokenText.punctuation {text : Bytes} {token : Token F} {b : UInt8}
    (h : TokenText lib text token) (hb : Lexer.punctuation token = some b) : text = [b] := by
  cases h with
  | @number text type h =>
    obtain ⟨u, hu⟩ | ⟨i, hi⟩ | ⟨x, hx⟩ := convert_cases lib text type
    · rw [hu] at hb
      cases hb
    · rw [hi] at hb
      cases hb
    · rw [hx] at hb
      cases hb
  | _ => cases hb <;> rfl

theorem TokenText.valueString {text s : Bytes} (h : TokenText lib text (.valueString s)) :
    ∃ text' cs, text = 0x22 :: (text' ++ [0x22]) ∧ StringText text' cs ∧ s = Utf8.encode cs := by
  generalize htoken : Token.valueString s = token at h
  cases h with
  | string h =>
    cases htoken
    exact ⟨_, _, rfl, h, rfl⟩
  | @number text type h =>
    obtain ⟨u, hu⟩ | ⟨i, hi⟩ | ⟨x, hx⟩ := convert_cases lib text type
    · cases htoken.trans hu
    · cases htoken.trans hi
    · cases htoken.trans hx
  | _ => cases htoken

/-- The end, a token that its first byte shows, or a number. -/
theorem scan_sound {input rest : Bytes} {token : Token F}
    (h : scan lib input = .ok (token, rest)) :
    ∃ ws, Whitespace ws ∧
      ((token = .endOfInput ∧ ∃ input', input = ws ++ input' ∧ AtEnd input' ∧ rest = input'.tail) ∨
        ∃ text, input = ws ++ (text ++ rest) ∧ TokenText lib text token ∧ Separated text rest) := by
  obtain ⟨ws, hws, hinput, -⟩ := skipWhitespace_spec input
  refine ⟨ws, hws, ?_⟩
  simp only [scan] at h
  cases hskip : skipWhitespace input with
  | nil =>
    rw [hskip] at h hinput
    cases h
    exact .inl ⟨rfl, [], hinput, by simp [AtEnd], rfl⟩
  | cons b input' =>
    rw [hskip] at h hinput
    simp only at h
    by_cases hb : b = 0x5B
    · obtain rfl := hb
      cases h
      exact .inr ⟨[0x5B], hinput, .beginArray, separated_of_not_start (by decide)⟩
    rw [if_neg hb] at h
    clear hb
    by_cases hb : b = 0x5D
    · obtain rfl := hb
      cases h
      exact .inr ⟨[0x5D], hinput, .endArray, separated_of_not_start (by decide)⟩
    rw [if_neg hb] at h
    clear hb
    by_cases hb : b = 0x7B
    · obtain rfl := hb
      cases h
      exact .inr ⟨[0x7B], hinput, .beginObject, separated_of_not_start (by decide)⟩
    rw [if_neg hb] at h
    clear hb
    by_cases hb : b = 0x7D
    · obtain rfl := hb
      cases h
      exact .inr ⟨[0x7D], hinput, .endObject, separated_of_not_start (by decide)⟩
    rw [if_neg hb] at h
    clear hb
    by_cases hb : b = 0x3A
    · obtain rfl := hb
      cases h
      exact .inr ⟨[0x3A], hinput, .nameSeparator, separated_of_not_start (by decide)⟩
    rw [if_neg hb] at h
    clear hb
    by_cases hb : b = 0x2C
    · obtain rfl := hb
      cases h
      exact .inr ⟨[0x2C], hinput, .valueSeparator, separated_of_not_start (by decide)⟩
    rw [if_neg hb] at h
    clear hb
    by_cases hb : b = 0x74
    · obtain rfl := hb
      obtain ⟨rfl, rfl⟩ := scanLiteral_eq_ok.mp h
      exact .inr ⟨0x74 :: _, hinput, .literalTrue, separated_of_not_start (by decide)⟩
    rw [if_neg hb] at h
    clear hb
    by_cases hb : b = 0x66
    · obtain rfl := hb
      obtain ⟨rfl, rfl⟩ := scanLiteral_eq_ok.mp h
      exact .inr ⟨0x66 :: _, hinput, .literalFalse, separated_of_not_start (by decide)⟩
    rw [if_neg hb] at h
    clear hb
    by_cases hb : b = 0x6E
    · obtain rfl := hb
      obtain ⟨rfl, rfl⟩ := scanLiteral_eq_ok.mp h
      exact .inr ⟨0x6E :: _, hinput, .literalNull, separated_of_not_start (by decide)⟩
    rw [if_neg hb] at h
    clear hb
    by_cases hb : b = 0x22
    · obtain rfl := hb
      obtain ⟨⟨s, rest'⟩, hs, heq⟩ := map_eq_ok.mp h
      cases heq
      obtain ⟨text, cs, rfl, htext, rfl⟩ := scanString_sound hs
      exact .inr ⟨0x22 :: (text ++ [0x22]), by simpa using hinput, .string htext,
        separated_of_not_start (by decide)⟩
    rw [if_neg hb] at h
    clear hb
    by_cases hb : NumberStart b
    · rw [if_pos (by exact hb)] at h
      obtain ⟨text, type, htext, hnum, hstops, rfl⟩ := (scanNumber_eq_ok lib hb).mp h
      exact .inr ⟨text, by rw [hinput, htext], .number hnum, fun _ _ => hstops⟩
    rw [if_neg (by exact hb)] at h
    clear hb
    by_cases hb : b = 0
    · obtain rfl := hb
      cases h
      exact .inl ⟨rfl, 0 :: rest, hinput, by simp [AtEnd], rfl⟩
    rw [if_neg hb] at h
    cases h

theorem scan_token {ws text rest : Bytes} {token : Token F} (hws : Whitespace ws)
    (ht : TokenText lib text token) (hsep : Separated text rest) :
    scan lib (ws ++ (text ++ rest)) = .ok (token, rest) := by
  cases ht with
  | beginArray | endArray | beginObject | endObject | nameSeparator | valueSeparator =>
    rw [scan, skipWhitespace_append hws (by simp [isWhitespace])]
    rfl
  | literalTrue | literalFalse | literalNull =>
    rw [scan, skipWhitespace_append hws (by simp [isWhitespace])]
    exact scanLiteral_eq_ok.mpr ⟨rfl, rfl⟩
  | @string text cs h =>
    rw [scan, skipWhitespace_append hws (by simp [isWhitespace])]
    have hs : scanString (text ++ 0x22 :: rest) = .ok (Utf8.encode cs, rest) := scanString_text h
    simp only [List.cons_append, List.append_assoc, List.nil_append, hs]
    rfl
  | @number _ type h =>
    obtain ⟨b, u, rfl, hb⟩ := h.cons
    have hne {c : UInt8} (hc : ¬ NumberStart c) : b ≠ c := numberStart_ne hb hc
    have hspace : isWhitespace b = false := by
      simp [isWhitespace, hne (c := 0x20) (by decide), hne (c := 0x09) (by decide),
        hne (c := 0x0A) (by decide), hne (c := 0x0D) (by decide)]
    have hnum : scanNumber lib b (u ++ rest) = .ok (convert lib (b :: u) type, rest) :=
      (scanNumber_eq_ok lib hb).mpr ⟨b :: u, type, rfl, h, hsep type h, rfl⟩
    rw [scan, skipWhitespace_append hws (by simpa using hspace)]
    simp only [List.cons_append]
    rw [if_neg (hne (by decide)), if_neg (hne (by decide)), if_neg (hne (by decide)),
      if_neg (hne (by decide)), if_neg (hne (by decide)), if_neg (hne (by decide)),
      if_neg (hne (by decide)), if_neg (hne (by decide)), if_neg (hne (by decide)),
      if_neg (hne (by decide)), if_pos (by exact hb), hnum]

theorem scan_end {ws input : Bytes} (hws : Whitespace ws) (hend : AtEnd input) :
    scan lib (ws ++ input) = .ok (.endOfInput, input.tail) := by
  cases input with
  | nil =>
    rw [scan, skipWhitespace_append hws (by simp)]
    rfl
  | cons b input =>
    obtain rfl := hend b rfl
    rw [scan, skipWhitespace_append hws (by simp [isWhitespace])]
    rfl

/-- `scan` is exact: what it returns is the next token of the input behind white space,
a number as far as it goes, or the end. -/
theorem scan_eq_ok {input rest : Bytes} {token : Token F} :
    scan lib input = .ok (token, rest) ↔ ∃ ws, Whitespace ws ∧
      ((token = .endOfInput ∧ ∃ input', input = ws ++ input' ∧ AtEnd input' ∧ rest = input'.tail) ∨
        ∃ text, input = ws ++ (text ++ rest) ∧ TokenText lib text token ∧ Separated text rest) := by
  constructor
  · exact scan_sound
  · rintro ⟨ws, hws, ⟨rfl, input', rfl, hend, rfl⟩ | ⟨text, rfl, ht, hsep⟩⟩
    · exact scan_end hws hend
    · exact scan_token hws ht hsep

end WebrtcNativeDemo.Lexer
