import WebrtcNativeDemo.JsonGrammar
import WebrtcNativeDemo.Serializer

/-!
# What is dumped is parsed again

The serializer writes texts of the grammar, pretty printed or not. A reader of its
output gets the value back, but for what JSON has no words for: a number that is not
finite becomes null, an integer that is not negative becomes an unsigned one, and what
the handler makes of bytes that are not UTF-8.
-/

namespace WebrtcNativeDemo

/-- What the comment on `to_chars` promises of the digits that it writes. -/
structure FloatLib.RoundTrips {F : Type} (lib : FloatLib F) : Prop where
  text : ∀ x, lib.isFinite x = true → Lexer.NumberText (lib.toChars x) .float
  value : ∀ x, lib.isFinite x = true → lib.strtod (lib.toChars x) = x

namespace Serializer

open Lexer JsonParser

variable {F : Type} (lib : FloatLib F)

/-! ### What a reader of the output gets -/

noncomputable def readString (handler : ErrorHandler) (s : Bytes) : Bytes :=
  Utf8.encode (readBack handler (Utf8.repair s))

mutual

/-- `str` is what becomes of the strings. Members whose keys become the same are one. -/
def reread (str : Bytes → Bytes) : BasicJson F → BasicJson F
  | .null => .null
  | .boolean b => .boolean b
  | .numberInteger i => if i < 0 then .numberInteger i else .numberUnsigned i.toUInt64
  | .numberUnsigned u => .numberUnsigned u
  | .numberFloat x => if lib.isFinite x then .numberFloat x else .null
  | .string s => .string (str s)
  | .array elements => .array (rereadElements str elements)
  | .object members => .object (rereadMembers str [] members)

def rereadElements (str : Bytes → Bytes) : List (BasicJson F) → List (BasicJson F)
  | [] => []
  | v :: vs => reread str v :: rereadElements str vs

def rereadMembers (str : Bytes → Bytes) (m : List (Bytes × BasicJson F)) :
    List (Bytes × BasicJson F) → List (Bytes × BasicJson F)
  | [] => m
  | (k, v) :: ms => rereadMembers str (OrderedMap.insert (str k) (reread str v) m) ms

end

/-! ### Scalars -/

variable {lib} {o : DumpOptions}

theorem unsigned_text (u : UInt64) : TokenText lib (decimal u.toNat) (.valueUnsigned u) := by
  have htext : NumberText (decimal u.toNat) .unsigned := by
    simpa [typeOf] using NumberText.unsigned (decimal_text u.toNat) .none .none
  have hconvert : convert lib (decimal u.toNat) .unsigned = .valueUnsigned u := by
    simp only [convert, strtoull, digitsValue_decimal, if_pos u.toNat_lt, UInt64.ofNat_toNat]
  exact hconvert ▸ .number htext

theorem integer_text {i : Int64} (hi : i.toInt < 0) :
    TokenText lib (0x2D :: decimal i.toInt.natAbs) (.valueInteger i) := by
  have htext : NumberText (0x2D :: decimal i.toInt.natAbs) .integer := by
    simpa [typeOf] using NumberText.integer (decimal_text i.toInt.natAbs) .none .none
  have hlow := i.le_toInt
  have hneg : (-(i.toInt.natAbs : ℤ)) = i.toInt := by omega
  have hconvert : convert lib (0x2D :: decimal i.toInt.natAbs) .integer = .valueInteger i := by
    simp only [convert, strtoll, List.tail_cons, digitsValue_decimal,
      if_pos (by omega : i.toInt.natAbs ≤ 2 ^ 63), hneg, Int64.ofInt_toInt]
  exact hconvert ▸ .number htext

theorem token_value {text : Bytes} {token : Token F} {v : BasicJson F}
    (ht : TokenText lib text token) (hv : token.scalar lib = some v) :
    JsonParser.Text lib (.value v) text := by
  have h := Text.scalar whitespace_nil ht hv
  exact h

theorem dumpInteger_text (i : Int64) : JsonParser.Text lib
    (.value (if i < 0 then .numberInteger i else .numberUnsigned i.toUInt64))
    (dumpInteger numberBuffer i) := by
  have hzero : (0 : Int64).toInt = 0 := rfl
  rw [dumpInteger_eq (by decide)]
  simp only [Int64.lt_iff_toInt_lt, hzero]
  split_ifs with hi
  · exact token_value (integer_text hi) rfl
  · have hval := int64_toNat i
    rw [if_neg hi] at hval
    rw [show i.toInt.natAbs = i.toUInt64.toNat by omega]
    exact token_value (unsigned_text _) rfl

theorem dumpFloat_text (hfloat : lib.RoundTrips) (x : F) : JsonParser.Text lib
    (.value (if lib.isFinite x then .numberFloat x else .null)) (dumpFloat lib x) := by
  unfold dumpFloat
  split_ifs with hx
  · have hconvert : convert lib (lib.toChars x) .float = .valueFloat x := by
      rw [convert, hfloat.value x hx]
    have htoken : TokenText lib (lib.toChars x) (.valueFloat x) :=
      hconvert ▸ .number (hfloat.text x hx)
    exact token_value htoken (by simp [Token.scalar, hx])
  · exact token_value .literalNull rfl

theorem dumpEscaped_text {handler : ErrorHandler} {ensureAscii : Bool} {s out : Bytes}
    (h : dumpEscaped handler ensureAscii s = .ok out) :
    ∃ cs, readString handler s = Utf8.encode cs ∧ StringText out cs := by
  obtain ⟨cs, hcs, rfl⟩ := dumpEscaped_writes h
  refine ⟨readBack handler cs, ?_, escapeAll_text handler ensureAscii cs⟩
  rw [readString, hcs.unique (Utf8.repaired_repair s)]

/-! ### White space -/

theorem text_prepend {ws t : Bytes} {v : BasicJson F} (hws : Whitespace ws)
    (h : JsonParser.Text lib (.value v) t) : JsonParser.Text lib (.value v) (ws ++ t) := by
  cases h with
  | scalar hws' ht hv =>
    rw [← List.append_assoc]
    exact .scalar (hws.append hws') ht hv
  | emptyArray hws' hws'' =>
    rw [← List.append_assoc]
    exact .emptyArray (hws.append hws') hws''
  | array hws' h hws'' =>
    rw [← List.append_assoc]
    exact .array (hws.append hws') h hws''
  | emptyObject hws' hws'' =>
    rw [← List.append_assoc]
    exact .emptyObject (hws.append hws') hws''
  | object hws' h hws'' =>
    rw [← List.append_assoc]
    exact .object (hws.append hws') h hws''

theorem newline_whitespace (o : DumpOptions) : Whitespace (newline o) :=
  forall_mem_newline (p := fun b => isWhitespace b = true) rfl

theorem innerIndent_whitespace {indentString : Bytes} (h : Whitespace indentString) (n : ℕ) :
    Whitespace (innerIndent o indentString n) :=
  forall_mem_innerIndent (p := fun b => isWhitespace b = true) rfl h n

/-! ### Arrays, objects and the whole -/

/-- The margins are white space, without the zero byte. -/
structure Blank (o : DumpOptions) (n : ℕ) (indentString : Bytes) : Prop where
  blank : Whitespace indentString
  roomy : Roomy o n indentString

/-- `indent_string` is still white space, and no shorter. -/
structure Widened (indentString indentString' : Bytes) : Prop where
  blank : Whitespace indentString'
  length : indentString.length ≤ indentString'.length

theorem Widened.trans {s s' s'' : Bytes} (h : Widened s s') (h' : Widened s' s'') :
    Widened s s'' :=
  ⟨h'.blank, Nat.le_trans h.length h'.length⟩

theorem Blank.refl {n : ℕ} {s : Bytes} (h : Blank o n s) : Widened s s :=
  ⟨h.blank, Nat.le_refl _⟩

theorem Blank.widened {n : ℕ} {s s' : Bytes} (h : Blank o n s) (hs : Widened s s') :
    Blank o n s' :=
  ⟨hs.blank, h.roomy.mono hs.length⟩

theorem Blank.inner {n : ℕ} {s : Bytes} (h : Blank o n s) (hstep : o.indentStep ≤ 1024) :
    Blank o (newIndent o n) (innerIndent o s n) :=
  ⟨innerIndent_whitespace h.blank n, h.roomy.inner hstep⟩

theorem Widened.of_inner {n : ℕ} {s s' : Bytes} (h : Widened (innerIndent o s n) s') :
    Widened s s' :=
  ⟨h.blank, Nat.le_trans (innerIndent_length s n) h.length⟩

theorem Blank.lineStart {n : ℕ} {s start : Bytes} (h : Blank o n s)
    (hstart : lineStart o s n = .ok start) : Whitespace start :=
  forall_mem_lineStart h.blank (.inr h.roomy) hstart

/-- What is written for `v` at any depth is text for what a reader gets. -/
def Dumps (lib : FloatLib F) (o : DumpOptions) (v : BasicJson F) : Prop :=
  ∀ currentIndent indentString out indentString', Blank o currentIndent indentString →
    dump lib o v currentIndent indentString = .ok (out, indentString') →
      JsonParser.Text lib (.value (reread lib (readString o.errorHandler) v)) out ∧
        Widened indentString indentString'

theorem dumpElements_text {elements : List (BasicJson F)} (ih : ∀ v ∈ elements, Dumps lib o v)
    (hne : elements ≠ []) {ws t : Bytes} {vs : List (BasicJson F)} (hhead : ArrayHead lib t vs)
    (hws : Whitespace ws) {n : ℕ} {indentString body indentString' : Bytes}
    (hindent : Blank o n indentString)
    (h : dumpElements lib o elements n indentString = .ok (body, indentString')) :
    JsonParser.Text lib
        (.elements (vs ++ rereadElements lib (readString o.errorHandler) elements))
        (t ++ (ws ++ body)) ∧ Widened indentString indentString' := by
  induction elements generalizing ws t vs indentString body with
  | nil => exact absurd rfl hne
  | cons v elements ihl =>
    simp only [dumpElements, Json.bind_ok] at h
    obtain ⟨start, hstart, ⟨text, indent⟩, htext, h⟩ := h
    have hstart := hindent.lineStart hstart
    obtain ⟨hv, hwide⟩ := ih v (by simp) n indentString text indent hindent htext
    have helements := hhead.value (text_prepend (hws.append hstart) hv)
    cases elements with
    | nil =>
      obtain ⟨rfl, rfl⟩ := Prod.mk.inj (Except.ok.inj h)
      exact ⟨by simpa [rereadElements] using helements, hwide⟩
    | cons w elements =>
      simp only [List.isEmpty_cons, Bool.false_eq_true, if_false, Json.bind_ok] at h
      obtain ⟨⟨rest, indent'⟩, hrest, h⟩ := h
      obtain ⟨rfl, rfl⟩ := Prod.mk.inj (Except.ok.inj h)
      have hcomma : ArrayHead lib _ _ := .comma helements whitespace_nil
      obtain ⟨hall, hwide'⟩ := ihl (fun u hu => ih u (by simp [hu])) (by simp) hcomma
        (newline_whitespace o) (hindent.widened hwide) hrest
      exact ⟨by simpa [rereadElements] using hall, hwide.trans hwide'⟩

theorem keyText_dump {start key s : Bytes} {cs : List Char} (hstart : Whitespace start)
    (hs : s = Utf8.encode cs) (htext : StringText key cs) :
    KeyText (start ++ (0x22 :: (key ++ [0x22]) ++ [0x3A])) s := by
  rw [hs]
  exact KeyText.intro hstart htext whitespace_nil

theorem dumpMembers_text {members : List (Bytes × BasicJson F)}
    (ih : ∀ e ∈ members, Dumps lib o e.2) (hne : members ≠ []) {ws t : Bytes}
    {ms : List (Bytes × BasicJson F)} (hhead : ObjectHead lib t ms) (hws : Whitespace ws) {n : ℕ}
    {indentString body indentString' : Bytes} (hindent : Blank o n indentString)
    (h : dumpMembers lib o members n indentString = .ok (body, indentString')) :
    JsonParser.Text lib
        (.members (rereadMembers lib (readString o.errorHandler) ms members))
        (t ++ (ws ++ body)) ∧ Widened indentString indentString' := by
  induction members generalizing ws t ms indentString body with
  | nil => exact absurd rfl hne
  | cons e members ihl =>
    obtain ⟨k, v⟩ := e
    simp only [dumpMembers, Json.bind_ok] at h
    obtain ⟨start, hstart, key, hkey, ⟨text, indent⟩, htext, h⟩ := h
    have hstart := hindent.lineStart hstart
    obtain ⟨cs, hcs, hkeyText⟩ := dumpEscaped_text hkey
    obtain ⟨hv, hwide⟩ := ih (k, v) (by simp) n indentString text indent hindent htext
    -- the blank behind the colon counts to the value
    obtain ⟨blank, hblank, hsep⟩ :
        ∃ blank, Whitespace blank ∧ keySeparator o = [0x22, 0x3A] ++ blank := by
      unfold keySeparator
      split_ifs
      · exact ⟨[0x20], by simp [Whitespace, isWhitespace], rfl⟩
      · exact ⟨[], by simp [Whitespace], rfl⟩
    have hmembers := hhead.value (keyText_dump (hws.append hstart) hcs hkeyText)
      (text_prepend hblank hv)
    rw [hsep] at h
    cases members with
    | nil =>
      obtain ⟨rfl, rfl⟩ := Prod.mk.inj (Except.ok.inj h)
      exact ⟨by simpa [rereadMembers] using hmembers, hwide⟩
    | cons d members =>
      simp only [List.isEmpty_cons, Bool.false_eq_true, if_false, Json.bind_ok] at h
      obtain ⟨⟨rest, indent'⟩, hrest, h⟩ := h
      obtain ⟨rfl, rfl⟩ := Prod.mk.inj (Except.ok.inj h)
      have hcomma : ObjectHead lib _ _ := .comma hmembers whitespace_nil
      obtain ⟨hall, hwide'⟩ := ihl (fun u hu => ih u (by simp [hu])) (by simp) hcomma
        (newline_whitespace o) (hindent.widened hwide) hrest
      exact ⟨by simpa [rereadMembers] using hall, hwide.trans hwide'⟩

theorem dump_text (hfloat : lib.RoundTrips) (v : BasicJson F)
    (hsmall : o.indentStep ≤ 1024 ∨ v.children = []) : Dumps lib o v := by
  induction v using BasicJson.induction with
  | h v ih =>
    intro currentIndent indentString out indentString' hindent h
    cases v with
    | null =>
      cases h
      exact ⟨token_value .literalNull rfl, hindent.refl⟩
    | boolean b =>
      cases b with
      | true =>
        cases h
        exact ⟨token_value .literalTrue rfl, hindent.refl⟩
      | false =>
        cases h
        exact ⟨token_value .literalFalse rfl, hindent.refl⟩
    | numberInteger i =>
      cases h
      exact ⟨dumpInteger_text i, hindent.refl⟩
    | numberUnsigned u =>
      cases h
      rw [dumpUnsigned_eq (by decide)]
      exact ⟨token_value (unsigned_text u) rfl, hindent.refl⟩
    | numberFloat x =>
      cases h
      exact ⟨dumpFloat_text hfloat x, hindent.refl⟩
    | string s =>
      simp only [dump, Json.bind_ok] at h
      obtain ⟨text, htext, h⟩ := h
      obtain ⟨rfl, rfl⟩ := Prod.mk.inj (Except.ok.inj h)
      obtain ⟨cs, hcs, htext⟩ := dumpEscaped_text htext
      refine ⟨token_value (.string htext) ?_, hindent.refl⟩
      rw [← hcs]
      rfl
    | array elements =>
      cases elements with
      | nil =>
        cases h
        exact ⟨.emptyArray whitespace_nil whitespace_nil, hindent.refl⟩
      | cons e elements =>
        simp only [dump, Json.bind_ok] at h
        obtain ⟨⟨body, indent⟩, hbody, last, hlast, h⟩ := h
        obtain ⟨rfl, rfl⟩ := Prod.mk.inj (Except.ok.inj h)
        have hstep := hsmall.resolve_right (by simp [BasicJson.children])
        have ih : ∀ v ∈ e :: elements, Dumps lib o v := fun v hv => ih v hv (.inl hstep)
        obtain ⟨htext, hwide⟩ := dumpElements_text ih (by simp) .empty (newline_whitespace o)
          (hindent.inner hstep) hbody
        have hwide := hwide.of_inner
        have hlast := (hindent.widened hwide).lineStart hlast
        refine ⟨?_, hwide⟩
        have harray := Text.array whitespace_nil htext
          ((newline_whitespace o).append hlast)
        simpa [reread] using harray
    | object members =>
      cases members with
      | nil =>
        cases h
        exact ⟨.emptyObject whitespace_nil whitespace_nil, hindent.refl⟩
      | cons e members =>
        simp only [dump, Json.bind_ok] at h
        obtain ⟨⟨body, indent⟩, hbody, last, hlast, h⟩ := h
        obtain ⟨rfl, rfl⟩ := Prod.mk.inj (Except.ok.inj h)
        have hstep := hsmall.resolve_right (by simp [BasicJson.children])
        obtain ⟨htext, hwide⟩ := dumpMembers_text
          (fun e he => ih e.2 (List.mem_map_of_mem he) (.inl hstep)) (by simp) .empty
          (newline_whitespace o) (hindent.inner hstep) hbody
        have hwide := hwide.of_inner
        have hlast := (hindent.widened hwide).lineStart hlast
        refine ⟨?_, hwide⟩
        have hobject := Text.object whitespace_nil htext
          ((newline_whitespace o).append hlast)
        simpa [reread] using hobject

theorem replicate_whitespace {c : UInt8} (hc : isWhitespace c = true) (n : ℕ) :
    Whitespace (List.replicate n c) :=
  List.forall_mem_replicate.mpr (.inr hc)

theorem parse_text {t : Bytes} {v : BasicJson F} (h : JsonParser.Text lib (.value v) t) :
    parse lib t = .ok v := by
  have hend : AtEnd [] := by simp [AtEnd]
  have hdocument := Document.plain h whitespace_nil hend
  exact parse_document (by simpa using hdocument)

section Whole

variable {v : BasicJson F} {indent : Int32} {indentChar : UInt8} {ensureAscii : Bool}
  {handler : ErrorHandler} {out : Bytes}

theorem dump_wholeText (hfloat : lib.RoundTrips) (hc : isWhitespace indentChar = true)
    (hsmall : indent.toInt ≤ 1024 ∨ v.children = [])
    (h : v.dump lib indent indentChar ensureAscii handler = .ok out) :
    JsonParser.Text lib (.value (reread lib (readString handler) v)) out := by
  have hblank (o : DumpOptions) : Blank o 0 (List.replicate 512 indentChar) :=
    ⟨replicate_whitespace hc 512, roomy_start o indentChar⟩
  by_cases hpretty : 0 ≤ indent.toInt
  · rw [dump_pretty hpretty] at h
    obtain ⟨⟨text, indentString⟩, hdump, rfl⟩ := map_eq_ok.mp h
    refine (dump_text hfloat v (hsmall.imp_left fun hle => ?_) _ _ _ _ (hblank _) hdump).1
    simp only
    omega
  · rw [dump_compact hpretty] at h
    obtain ⟨⟨text, indentString⟩, hdump, rfl⟩ := map_eq_ok.mp h
    exact (dump_text hfloat v (.inl (Nat.zero_le _)) _ _ _ _ (hblank _) hdump).1

theorem dump_reread (hfloat : lib.RoundTrips) (hc : isWhitespace indentChar = true)
    (hsmall : indent.toInt ≤ 1024 ∨ v.children = [])
    (h : v.dump lib indent indentChar ensureAscii handler = .ok out) :
    parse lib out = .ok (reread lib (readString handler) v) :=
  parse_text (dump_wholeText hfloat hc hsmall h)

/-- There is a text only if the indentation is at most 1025 or nothing is indented. -/
theorem small_of_dump (hcut : ¬ (indent.toInt = 1025 ∧ v.children ≠ []))
    (h : v.dump lib indent indentChar ensureAscii handler = .ok out) :
    indent.toInt ≤ 1024 ∨ v.children = [] := by
  have hlt := indent.toInt_lt
  by_contra hbig
  obtain ⟨hindent, hne⟩ := not_or.mp hbig
  have hover : 1025 < indent.toInt := by
    by_contra hle
    exact hcut ⟨by omega, hne⟩
  rw [dump_pretty (by omega),
    start_overread rfl indentChar (by simp only; omega) (by simp only; omega) hne] at h
  cases h

theorem dumpElements_head {e : BasicJson F} {elements : List (BasicJson F)} {n : ℕ}
    {s body s' : Bytes} (h : dumpElements lib o (e :: elements) n s = .ok (body, s')) :
    ∃ start rest, lineStart o s n = .ok start ∧ body = start ++ rest := by
  simp only [dumpElements, Json.bind_ok] at h
  obtain ⟨start, hstart, ⟨text, s₁⟩, -, h⟩ := h
  split_ifs at h
  · obtain ⟨rfl, -⟩ := Prod.mk.inj (Except.ok.inj h)
    exact ⟨start, _, hstart, rfl⟩
  · obtain ⟨_, -, h⟩ := Json.bind_ok.mp h
    obtain ⟨rfl, -⟩ := Prod.mk.inj (Except.ok.inj h)
    exact ⟨start, _, hstart, List.append_assoc _ _ _⟩

theorem dumpMembers_head {e : Bytes × BasicJson F} {members : List (Bytes × BasicJson F)} {n : ℕ}
    {s body s' : Bytes} (h : dumpMembers lib o (e :: members) n s = .ok (body, s')) :
    ∃ start rest, lineStart o s n = .ok start ∧ body = start ++ rest := by
  obtain ⟨k, v⟩ := e
  simp only [dumpMembers, Json.bind_ok] at h
  obtain ⟨start, hstart, key, -, ⟨text, s₁⟩, -, h⟩ := h
  split_ifs at h
  · obtain ⟨rfl, -⟩ := Prod.mk.inj (Except.ok.inj h)
    exact ⟨start, 0x22 :: key ++ keySeparator o ++ text, hstart, by simp⟩
  · obtain ⟨⟨rest, s₂⟩, -, h⟩ := Json.bind_ok.mp h
    obtain ⟨rfl, -⟩ := Prod.mk.inj (Except.ok.inj h)
    exact ⟨start, 0x22 :: key ++ keySeparator o ++ text ++ 0x2C :: (newline o ++ rest), hstart,
      by simp⟩

/-- A value with children begins with its bracket and the first margin. -/
theorem dump_head {n : ℕ} {s s' : Bytes} (hpretty : o.prettyPrint = true) (hne : v.children ≠ [])
    (h : dump lib o v n s = .ok (out, s')) : ∃ b start rest, (b = 0x5B ∨ b = 0x7B) ∧
      lineStart o (innerIndent o s n) (newIndent o n) = .ok start ∧
        out = b :: 0x0A :: (start ++ rest) := by
  have hline : newline o = [0x0A] := if_pos hpretty
  cases v with
  | array elements =>
    cases elements with
    | nil => exact absurd rfl hne
    | cons e elements =>
      simp only [dump, Json.bind_ok] at h
      obtain ⟨⟨body, s₁⟩, hbody, last, -, h⟩ := h
      obtain ⟨start, rest, hstart, rfl⟩ := dumpElements_head hbody
      obtain ⟨rfl, -⟩ := Prod.mk.inj (Except.ok.inj h)
      exact ⟨0x5B, start, rest ++ (newline o ++ last ++ [0x5D]), .inl rfl, hstart, by simp [hline]⟩
  | object members =>
    cases members with
    | nil => exact absurd rfl hne
    | cons e members =>
      simp only [dump, Json.bind_ok] at h
      obtain ⟨⟨body, s₁⟩, hbody, last, -, h⟩ := h
      obtain ⟨start, rest, hstart, rfl⟩ := dumpMembers_head hbody
      obtain ⟨rfl, -⟩ := Prod.mk.inj (Except.ok.inj h)
      exact ⟨0x7B, start, rest ++ (newline o ++ last ++ [0x7D]), .inr rfl, hstart, by simp [hline]⟩
  | _ => exact absurd rfl hne

/-- The first margin of an indentation of 1025 ends with a zero byte. -/
theorem dump_cut (hc : isWhitespace indentChar = true) (hindent : indent.toInt = 1025)
    (hne : v.children ≠ []) (h : v.dump lib indent indentChar ensureAscii handler = .ok out) :
    ∃ message, parse lib out = .error (.parseError message) := by
  obtain ⟨o, hpretty, hstep, s', hdump⟩ : ∃ o : DumpOptions, o.prettyPrint = true ∧
      o.indentStep = 1025 ∧
        ∃ s', dump lib o v 0 (List.replicate 512 indentChar) = .ok (out, s') := by
    rw [dump_pretty (by omega)] at h
    obtain ⟨⟨text, s'⟩, hdump, rfl⟩ := map_eq_ok.mp h
    exact ⟨_, rfl, by simp only; omega, s', hdump⟩
  obtain ⟨b, start, rest, hb, hstart, rfl⟩ := dump_head hpretty hne hdump
  have hlength := innerIndent_start hpretty (by omega) (by omega) indentChar
  have hnew := newIndent_start hpretty (by omega)
  have hblank := innerIndent_whitespace (o := o) (replicate_whitespace hc 512) 0
  have hfull (s : Bytes) (hs : s.length = 1024) : (s ++ [0]).take 1025 = s ++ [0] :=
    List.take_of_length_le (by simp [hs])
  rw [lineStart, if_pos hpretty, hnew, hstep, margin, hlength, if_pos (Nat.le_refl _),
    hfull _ hlength] at hstart
  obtain rfl := Except.ok.inj hstart
  have hws : Whitespace (0x0A :: innerIndent o (List.replicate 512 indentChar) 0) :=
    List.forall_mem_cons.mpr ⟨rfl, hblank⟩
  rw [List.append_assoc, ← List.cons_append]
  exact parse_cut hb hws rest

end Whole

/-! ### Strings and members that stay as they are -/

theorem readString_encode (cs : List Char) :
    readString .strict (Utf8.encode cs) = Utf8.encode cs := by
  have hread : readBack .strict (cs.map some) = cs := by
    simp [readBack, List.flatMap_map, readOne]
  rw [readString, Utf8.repair_encode, hread]

theorem readString_valid {s : Bytes} (h : Utf8.Valid s) : readString .strict s = s := by
  obtain ⟨cs, rfl⟩ := Utf8.valid_iff.mp h
  exact readString_encode cs

theorem rereadElements_eq (str : Bytes → Bytes) (vs : List (BasicJson F)) :
    rereadElements lib str vs = vs.map (reread lib str) := by
  induction vs with
  | nil => rfl
  | cons v vs ih => rw [rereadElements, ih, List.map_cons]

theorem rereadMembers_eq (str : Bytes → Bytes) (m ms : List (Bytes × BasicJson F)) :
    rereadMembers lib str m ms = (ms.map fun e => (str e.1, reread lib str e.2)).foldl
      (fun m e => OrderedMap.insert e.1 e.2 m) m := by
  induction ms generalizing m with
  | nil => rfl
  | cons e ms ih => rw [rereadMembers, ih, List.map_cons, List.foldl_cons]

theorem reread_strict {v : BasicJson F} (h : v.Everywhere BasicJson.Utf8Here) :
    reread lib (readString .strict) v = reread lib id v := by
  induction h with
  | @intro v h _ ih =>
    cases v with
    | string s => simp only [reread, readString_valid h, id]
    | array elements =>
      simp only [reread, rereadElements_eq]
      congr 1
      exact List.map_congr_left ih
    | object members =>
      simp only [reread, rereadMembers_eq]
      congr 2
      apply List.map_congr_left
      intro e he
      rw [readString_valid (h e.1 (List.mem_map_of_mem he)), ih e.2 (List.mem_map_of_mem he)]
      rfl
    | _ => simp only [reread]

/-- The members of a value that is well formed keep their places. -/
theorem reread_object {members : List (Bytes × BasicJson F)} (h : OrderedMap.Sorted members) :
    reread lib id (.object members) =
      .object (members.map fun e => (e.1, reread lib id e.2)) := by
  have hkeys : OrderedMap.keys (members.map fun e => (e.1, reread lib id e.2)) =
      OrderedMap.keys members := by
    simp [OrderedMap.keys, Function.comp_def]
  have hsorted : OrderedMap.Sorted ([] ++ members.map fun e => (e.1, reread lib id e.2)) := by
    rw [List.nil_append, OrderedMap.Sorted, hkeys]
    exact h
  simp only [reread, rereadMembers_eq, id]
  rw [OrderedMap.foldl_insert hsorted, List.nil_append]

theorem dumpElements_map {f : BasicJson F → BasicJson F} {vs : List (BasicJson F)}
    (h : ∀ v ∈ vs, ∀ n s, dump lib o (f v) n s = dump lib o v n s) (n : ℕ) (s : Bytes) :
    dumpElements lib o (vs.map f) n s = dumpElements lib o vs n s := by
  induction vs generalizing s with
  | nil => rfl
  | cons v vs ih =>
    obtain ⟨hv, hvs⟩ := List.forall_mem_cons.mp h
    simp only [List.map_cons, dumpElements, hv, List.isEmpty_map, ih hvs]

theorem dumpMembers_map {f : BasicJson F → BasicJson F} {ms : List (Bytes × BasicJson F)}
    (h : ∀ e ∈ ms, ∀ n s, dump lib o (f e.2) n s = dump lib o e.2 n s) (n : ℕ) (s : Bytes) :
    dumpMembers lib o (ms.map fun e => (e.1, f e.2)) n s = dumpMembers lib o ms n s := by
  induction ms generalizing s with
  | nil => rfl
  | cons e ms ih =>
    obtain ⟨k, v⟩ := e
    obtain ⟨hv, hms⟩ := List.forall_mem_cons.mp h
    simp only [List.map_cons, dumpMembers, hv, List.isEmpty_map, ih hms]

/-- A reader who dumps what he got writes the same text. -/
theorem dump_reread_eq {v : BasicJson F} (h : v.WellFormed) (n : ℕ) (s : Bytes) :
    dump lib o (reread lib id v) n s = dump lib o v n s := by
  induction h generalizing n s with
  | @intro v h _ ih =>
    cases v with
    | numberInteger i =>
      have hzero : (0 : Int64).toInt = 0 := rfl
      simp only [reread, Int64.lt_iff_toInt_lt, hzero]
      split_ifs with hi
      · rfl
      · have hval := int64_toNat i
        rw [if_neg hi] at hval
        have habs : i.toInt.natAbs = i.toUInt64.toNat := by omega
        simp only [dump, dumpInteger_eq (by decide : 21 ≤ numberBuffer.length), if_neg hi,
          dumpUnsigned_eq (by decide : 20 ≤ numberBuffer.length), habs, List.nil_append]
    | numberFloat x =>
      simp only [reread]
      split_ifs with hx
      · rfl
      · simp [dump, dumpFloat, hx]
    | array elements =>
      simp only [reread, rereadElements_eq]
      cases elements with
      | nil => rfl
      | cons e elements =>
        have hmap := dumpElements_map ih
        simp only [BasicJson.children, List.map_cons] at hmap
        simp only [List.map_cons, dump, hmap]
    | object members =>
      rw [reread_object h.1]
      cases members with
      | nil => rfl
      | cons e members =>
        have hmap := dumpMembers_map fun d (hd : d ∈ e :: members) =>
          ih d.2 (List.mem_map_of_mem hd)
        simp only [List.map_cons] at hmap
        simp only [List.map_cons, dump, hmap]
    | _ => simp only [reread, id]

/-! ### What can be dumped -/

theorem bind_isOk {ε α β : Type} {x : Except ε α} {f : α → Except ε β} :
    (∃ b, x >>= f = .ok b) ↔ ∃ a, x = .ok a ∧ ∃ b, f a = .ok b := by
  simp only [Json.bind_ok]
  constructor
  · rintro ⟨b, a, ha, hb⟩
    exact ⟨a, ha, b, hb⟩
  · rintro ⟨a, ha, b, hb⟩
    exact ⟨b, a, ha, hb⟩

theorem dumpEscaped_isOk (ensureAscii : Bool) (s : Bytes) :
    (∃ out, dumpEscaped .strict ensureAscii s = .ok out) ↔ Utf8.Valid s := by
  obtain ⟨cs, out, rfl, hout, -⟩ | ⟨hno, message, hthrow⟩ := dumpEscaped_strict ensureAscii s
  · exact ⟨fun _ => Utf8.valid_encode cs, fun _ => ⟨out, hout⟩⟩
  · constructor
    · rintro ⟨out, hout⟩
      cases hthrow.symm.trans hout
    · exact fun h => absurd h hno

/-- Without line breaks only a string can go wrong. -/
def Dumpable (lib : FloatLib F) (o : DumpOptions) (v : BasicJson F) : Prop :=
  ∀ n s, (∃ r, dump lib o v n s = .ok r) ↔ v.Everywhere BasicJson.Utf8Here

section Compact
variable (hpretty : o.prettyPrint = false) (hstrict : o.errorHandler = .strict)
include hpretty

theorem lineStart_compact (s : Bytes) (n : ℕ) : lineStart o s n = .ok [] := by
  simp [lineStart, hpretty]

theorem dumpElements_isOk {vs : List (BasicJson F)} (ih : ∀ v ∈ vs, Dumpable lib o v) (n : ℕ)
    (s : Bytes) : (∃ r, dumpElements lib o vs n s = .ok r) ↔
      ∀ v ∈ vs, v.Everywhere BasicJson.Utf8Here := by
  induction vs generalizing s with
  | nil => simp [dumpElements]
  | cons v vs ihl =>
    obtain ⟨hv, hvs⟩ := List.forall_mem_cons.mp ih
    rw [List.forall_mem_cons, ← hv n s, dumpElements, bind_isOk]
    constructor
    · rintro ⟨_, -, hrest⟩
      obtain ⟨⟨text, s'⟩, htext, hrest⟩ := bind_isOk.mp hrest
      refine ⟨⟨_, htext⟩, ?_⟩
      cases vs with
      | nil => simp
      | cons w vs =>
        obtain ⟨r, hr, -⟩ := bind_isOk.mp hrest
        exact (ihl hvs s').mp ⟨r, hr⟩
    · rintro ⟨⟨⟨text, s'⟩, htext⟩, hall⟩
      refine ⟨[], lineStart_compact hpretty s n, bind_isOk.mpr ⟨_, htext, ?_⟩⟩
      cases vs with
      | nil => exact ⟨_, rfl⟩
      | cons w vs =>
        obtain ⟨r, hr⟩ := (ihl hvs s').mpr hall
        exact bind_isOk.mpr ⟨r, hr, _, rfl⟩

include hstrict

theorem dumpMembers_isOk {ms : List (Bytes × BasicJson F)} (ih : ∀ e ∈ ms, Dumpable lib o e.2)
    (n : ℕ) (s : Bytes) : (∃ r, dumpMembers lib o ms n s = .ok r) ↔
      ∀ e ∈ ms, Utf8.Valid e.1 ∧ e.2.Everywhere BasicJson.Utf8Here := by
  induction ms generalizing s with
  | nil => simp [dumpMembers]
  | cons e ms ihl =>
    obtain ⟨k, v⟩ := e
    obtain ⟨hv, hms⟩ := List.forall_mem_cons.mp ih
    rw [List.forall_mem_cons, ← hv n s, ← dumpEscaped_isOk o.ensureAscii k, dumpMembers, bind_isOk]
    constructor
    · rintro ⟨_, -, hrest⟩
      obtain ⟨key, hkey, hrest⟩ := bind_isOk.mp hrest
      obtain ⟨⟨text, s'⟩, htext, hrest⟩ := bind_isOk.mp hrest
      refine ⟨⟨⟨key, hstrict ▸ hkey⟩, _, htext⟩, ?_⟩
      cases ms with
      | nil => simp
      | cons d ms =>
        obtain ⟨r, hr, -⟩ := bind_isOk.mp hrest
        exact (ihl hms s').mp ⟨r, hr⟩
    · rintro ⟨⟨⟨key, hkey⟩, ⟨text, s'⟩, htext⟩, hall⟩
      refine ⟨[], lineStart_compact hpretty s n,
        bind_isOk.mpr ⟨key, hstrict ▸ hkey, bind_isOk.mpr ⟨_, htext, ?_⟩⟩⟩
      cases ms with
      | nil => exact ⟨_, rfl⟩
      | cons d ms =>
        obtain ⟨r, hr⟩ := (ihl hms s').mpr hall
        exact bind_isOk.mpr ⟨r, hr, _, rfl⟩

theorem dumpable (v : BasicJson F) : Dumpable lib o v := by
  induction v using BasicJson.induction with
  | h v ih =>
    intro n s
    rw [BasicJson.everywhere_iff]
    cases v with
    | string t =>
      rw [dump, bind_isOk, hstrict]
      have hleaf := dumpEscaped_isOk o.ensureAscii t
      constructor
      · rintro ⟨out, hout, -⟩
        exact ⟨hleaf.mp ⟨out, hout⟩, by simp [BasicJson.children]⟩
      · rintro ⟨ht, -⟩
        obtain ⟨out, hout⟩ := hleaf.mpr ht
        exact ⟨out, hout, _, rfl⟩
    | array elements =>
      have ih : ∀ v ∈ elements, Dumpable lib o v := ih
      cases elements with
      | nil => simp [dump, BasicJson.children, BasicJson.Utf8Here]
      | cons e elements =>
        rw [dump, bind_isOk]
        constructor
        · rintro ⟨r, hr, -⟩
          exact ⟨trivial, (dumpElements_isOk hpretty ih _ _).mp ⟨r, hr⟩⟩
        · rintro ⟨-, hall⟩
          obtain ⟨r, hr⟩ := (dumpElements_isOk hpretty ih (newIndent o n)
            (innerIndent o s n)).mpr hall
          exact ⟨r, hr, bind_isOk.mpr ⟨[], lineStart_compact hpretty _ _, _, rfl⟩⟩
    | object members =>
      have ih : ∀ e ∈ members, Dumpable lib o e.2 := fun e he => ih e.2 (List.mem_map_of_mem he)
      have hmembers : (BasicJson.Utf8Here (.object members) ∧
          ∀ w ∈ (BasicJson.object members).children, w.Everywhere BasicJson.Utf8Here) ↔
          ∀ e ∈ members, Utf8.Valid e.1 ∧ e.2.Everywhere BasicJson.Utf8Here := by
        simp only [BasicJson.Utf8Here, OrderedMap.keys, BasicJson.children, List.forall_mem_map]
        exact ⟨fun h e he => ⟨h.1 e he, h.2 e he⟩, fun h => ⟨fun e he => (h e he).1,
          fun e he => (h e he).2⟩⟩
      rw [hmembers]
      cases members with
      | nil => simp [dump]
      | cons e members =>
        rw [dump, bind_isOk]
        constructor
        · rintro ⟨r, hr, -⟩
          exact (dumpMembers_isOk hpretty hstrict ih _ _).mp ⟨r, hr⟩
        · intro hall
          obtain ⟨r, hr⟩ := (dumpMembers_isOk hpretty hstrict ih (newIndent o n)
            (innerIndent o s n)).mpr hall
          exact ⟨r, hr, bind_isOk.mpr ⟨[], lineStart_compact hpretty _ _, _, rfl⟩⟩
    | boolean b => cases b <;> simp [dump, BasicJson.children, BasicJson.Utf8Here]
    | _ => simp [dump, BasicJson.children, BasicJson.Utf8Here]

end Compact

variable (lib) in
theorem dump_isOk (v : BasicJson F) (indentChar : UInt8) (ensureAscii : Bool) :
    (∃ out, v.dump lib (-1) indentChar ensureAscii .strict = .ok out) ↔
      v.Everywhere BasicJson.Utf8Here := by
  have hcompact : Dumpable lib ⟨false, ensureAscii, 0, .strict⟩ v := dumpable rfl rfl v
  have hneg : ¬ (0 : ℤ) ≤ (-1 : Int32).toInt := by decide
  rw [← hcompact 0 (List.replicate 512 indentChar)]
  simp only [BasicJson.dump, if_neg hneg, map_eq_ok]
  constructor
  · rintro ⟨out, r, hr, -⟩
    exact ⟨r, hr⟩
  · rintro ⟨r, hr⟩
    exact ⟨r.1, r, hr, rfl⟩

/-- Nothing of a value is lost in a text: no number that a reader takes for another one. -/
def ExactHere (lib : FloatLib F) : BasicJson F → Prop
  | .numberFloat x => lib.isFinite x = true
  | .numberInteger i => i.toInt < 0
  | _ => True

theorem map_fixed {α : Type} {f : α → α} {l : List α} :
    l.map f = l ↔ ∀ a ∈ l, f a = a := by
  induction l with
  | nil => simp
  | cons a l ih => simp [ih]

theorem reread_fixed {v : BasicJson F} (h : v.WellFormed) :
    reread lib id v = v ↔ v.Everywhere (ExactHere lib) := by
  induction h with
  | @intro v h _ ih =>
    rw [BasicJson.everywhere_iff]
    cases v with
    | numberInteger i =>
      have hzero : (0 : Int64).toInt = 0 := rfl
      simp only [reread, Int64.lt_iff_toInt_lt, hzero, ExactHere, BasicJson.children]
      split_ifs with hi <;> simp [hi]
    | numberFloat x =>
      simp only [reread, ExactHere, BasicJson.children]
      split_ifs with hx <;> simp [hx]
    | array elements =>
      simp only [reread, rereadElements_eq, BasicJson.array.injEq, map_fixed, ExactHere, true_and]
      exact forall₂_congr ih
    | object members =>
      rw [reread_object h.1]
      simp only [BasicJson.object.injEq, map_fixed, ExactHere, true_and, BasicJson.children,
        List.forall_mem_map]
      refine forall₂_congr fun e he => ?_
      rw [← ih e.2 (List.mem_map_of_mem he)]
      exact ⟨fun heq => (Prod.mk.inj heq).2, fun heq => Prod.ext rfl heq⟩
    | _ => simp [reread, ExactHere, BasicJson.children]

/-! ### The round trips -/

/-- Whole numbers in place of doubles, with `none` for what is not finite. -/
def wholeNumbers : FloatLib (Option ℕ) where
  strtod s := some (digitsValue (s.takeWhile (· != 0x2E)))
  isFinite := Option.isSome
  toChars x := decimal (x.getD 0) ++ [0x2E, 0x30]

theorem wholeNumbers_roundTrips : wholeNumbers.RoundTrips where
  text x _ := by
    have hfrac : FracText [0x2E, 0x30] := by
      refine .some ⟨by simp, ?_⟩
      rintro d (_ | ⟨_, ⟨⟩⟩)
      decide
    simpa [typeOf, wholeNumbers] using NumberText.unsigned (decimal_text (x.getD 0)) hfrac .none
  value x hx := by
    obtain ⟨n, rfl⟩ := Option.isSome_iff_exists.mp hx
    have hdigits : ∀ d ∈ decimal n, (d != 0x2E) = true := by
      intro d hd
      have hlow := (decimal_digits n d hd).1
      simp only [bne_iff_ne]
      rintro rfl
      exact absurd hlow (by decide)
    simp only [wholeNumbers, Option.getD_some, List.takeWhile_append_of_pos hdigits]
    simp [digitsValue_decimal]

/-- An array with a number that is not finite and a string that is not UTF-8. -/
def mixedArray : BasicJson (Option ℕ) :=
  .array [.numberFloat (some 3), .numberFloat none, .numberInteger 7, .string [0x61, 0xFF]]

/-- An object with a key beyond ASCII. -/
def plainObject : BasicJson (Option ℕ) :=
  .object [([0x61], .array [.numberFloat (some 3), .numberInteger (-7)]), ([0xC3, 0xA9], .null)]

/-- Each 64 bit integer, signed or not, is one token again, `INT64_MIN` among them,
whatever was in the buffer before. -/
theorem scan_dumpInteger (numberBuffer rest : Bytes) (h : 21 ≤ numberBuffer.length) :
    (∀ i, Stops (dumpInteger numberBuffer i) rest →
      scan lib (dumpInteger numberBuffer i ++ rest) =
        .ok (if i < 0 then .valueInteger i else .valueUnsigned i.toUInt64, rest)) ∧
    ∀ u, Stops (dumpUnsigned numberBuffer u) rest →
      scan lib (dumpUnsigned numberBuffer u ++ rest) = .ok (.valueUnsigned u, rest) := by
  have hzero : (0 : Int64).toInt = 0 := rfl
  have hscan {text : Bytes} {token : Token F} (ht : TokenText lib text token)
      (hrest : Stops text rest) : scan lib (text ++ rest) = .ok (token, rest) :=
    scan_token whitespace_nil ht fun _ _ => hrest
  constructor
  · intro i hrest
    rw [dumpInteger_eq h] at hrest ⊢
    simp only [Int64.lt_iff_toInt_lt, hzero]
    split_ifs at hrest ⊢ with hi
    · exact hscan (integer_text hi) hrest
    · have hval := int64_toNat i
      rw [if_neg hi] at hval
      rw [show i.toInt.natAbs = i.toUInt64.toNat by omega] at hrest ⊢
      exact hscan (unsigned_text _) hrest
  · intro u hrest
    rw [dumpUnsigned_eq (by omega)] at hrest ⊢
    exact hscan (unsigned_text u) hrest

theorem scan_dumpInteger_min :
    scan wholeNumbers (dumpInteger numberBuffer Int64.minValue ++ [0x5D]) =
        .ok (.valueInteger Int64.minValue, [0x5D]) ∧
      scan wholeNumbers (dumpUnsigned numberBuffer 0xFFFFFFFFFFFFFFFF ++ [0x5D]) =
        .ok (.valueUnsigned 0xFFFFFFFFFFFFFFFF, [0x5D]) :=
  ⟨(scan_dumpInteger numberBuffer [0x5D] (by decide)).1 _ (delimited_cons rfl).stops,
    (scan_dumpInteger numberBuffer [0x5D] (by decide)).2 _ (delimited_cons rfl).stops⟩

/-- Whatever the layout and the handler, what was written is accepted, as the value
without what JSON cannot say. Only where the first margin ends with the zero byte behind
`indent_string` is it rejected. -/
theorem parse_dump (hfloat : lib.RoundTrips) (v : BasicJson F) (indent : Int32)
    (indentChar : UInt8) (hc : isWhitespace indentChar = true) (ensureAscii : Bool)
    (handler : ErrorHandler) (out : Bytes)
    (h : v.dump lib indent indentChar ensureAscii handler = .ok out) :
    if indent.toInt = 1025 ∧ v.children ≠ [] then
      ∃ message, parse lib out = .error (.parseError message)
    else parse lib out = .ok (reread lib (readString handler) v) := by
  split_ifs with hcut
  · exact dump_cut hc hcut.1 hcut.2 h
  · exact dump_reread hfloat hc (small_of_dump hcut h) h

theorem parse_dump_mixedArray :
    parse wholeNumbers (Utf8.encode "[\n  3.0,\n  null,\n  7,\n  \"a\\ufffd\"\n]".toList) =
      .ok (reread wholeNumbers (readString .replace) mixedArray) :=
  parse_dump wholeNumbers_roundTrips mixedArray 2 0x20 rfl true .replace _ (by decide +kernel)

/-- On one line and with the strict handler, exactly the values with UTF-8 in all strings
and keys can be written; the others throw 316. -/
theorem dump_strict (v : BasicJson F) (indentChar : UInt8) (ensureAscii : Bool) :
    (v.Everywhere BasicJson.Utf8Here ∧
        ∃ out, v.dump lib (-1) indentChar ensureAscii .strict = .ok out) ∨
      ¬ v.Everywhere BasicJson.Utf8Here ∧
        ∃ message, v.dump lib (-1) indentChar ensureAscii .strict =
          .error (.typeError message) := by
  rw [← dump_isOk lib v indentChar ensureAscii]
  cases h : v.dump lib (-1) indentChar ensureAscii .strict with
  | ok out => exact .inl ⟨⟨out, rfl⟩, out, rfl⟩
  | error failure =>
    rw [dump_compact (by decide)] at h
    obtain ⟨-, message, rfl⟩ := (start_safe indentChar (.inl (Nat.zero_le _))).map_error h
    exact .inr ⟨by simp, message, rfl⟩

/-- A value comes back as it was if and only if its members are in order, each of its
numbers is one that a text can say, and no zero byte has got into the first margin. -/
theorem parse_dump_eq (hfloat : lib.RoundTrips) (v : BasicJson F) (indent : Int32)
    (indentChar : UInt8) (hc : isWhitespace indentChar = true) (ensureAscii : Bool) (out : Bytes)
    (h : v.dump lib indent indentChar ensureAscii .strict = .ok out) :
    parse lib out = .ok v ↔ v.WellFormed ∧ v.Everywhere (ExactHere lib) ∧
      (indent.toInt = 1025 → v.children = []) := by
  constructor
  · intro hv
    have hcut : ¬ (indent.toInt = 1025 ∧ v.children ≠ []) := by
      rintro ⟨hindent, hne⟩
      obtain ⟨message, herror⟩ := dump_cut hc hindent hne h
      cases hv.symm.trans herror
    have hparse := dump_reread hfloat hc (small_of_dump hcut h) h
    have hwf := (parse_sound hv).1
    rw [reread_strict hwf.utf8] at hparse
    exact ⟨hwf, (reread_fixed hwf).mp (Except.ok.inj (hparse.symm.trans hv)),
      fun hindent => by_contra fun hne => hcut ⟨hindent, hne⟩⟩
  · rintro ⟨hwf, hexact, hflat⟩
    rw [dump_reread hfloat hc (small_of_dump (fun hcut => hcut.2 (hflat hcut.1)) h) h,
      reread_strict hwf.utf8, (reread_fixed hwf).mpr hexact]

theorem parse_dump_eq_plainObject :
    parse wholeNumbers (Utf8.encode "\x7b\"a\":[3.0,-7],\"é\":null\x7d".toList) =
        .ok plainObject ∧
      plainObject.WellFormed ∧ plainObject.Everywhere (ExactHere wholeNumbers) ∧
        ((-1 : Int32).toInt = 1025 → plainObject.children = []) := by
  have hparse : parse wholeNumbers (Utf8.encode "\x7b\"a\":[3.0,-7],\"é\":null\x7d".toList) =
      .ok plainObject := by with_unfolding_all rfl
  exact ⟨hparse, (parse_dump_eq wholeNumbers_roundTrips plainObject (-1) 0x20 rfl false _
    (by decide +kernel)).mp hparse⟩

/-- A text that was accepted is written again in one way, which stays as it is from then
on: parsed and dumped once more it is the same. -/
theorem dump_parse (hfloat : lib.RoundTrips) (text : Bytes) (v : BasicJson F)
    (ensureAscii : Bool) (h : parse lib text = .ok v) :
    ∃ out w, v.dump lib (-1) 0x20 ensureAscii .strict = .ok out ∧ parse lib out = .ok w ∧
      w.dump lib (-1) 0x20 ensureAscii .strict = .ok out := by
  have hwf := (parse_sound h).1
  obtain ⟨out, hout⟩ := (dump_isOk lib v 0x20 ensureAscii).mpr hwf.utf8
  refine ⟨out, _, hout, dump_reread hfloat rfl (.inl (by decide)) hout, ?_⟩
  rw [reread_strict hwf.utf8, BasicJson.dump, dump_reread_eq hwf]
  exact hout

theorem dump_parse_numbers : ∃ out w,
    (BasicJson.array [.numberUnsigned 5, .numberFloat (some 3)]).dump wholeNumbers (-1) 0x20 true
        .strict = .ok out ∧
      parse wholeNumbers out = .ok w ∧ w.dump wholeNumbers (-1) 0x20 true .strict = .ok out :=
  dump_parse wholeNumbers_roundTrips (Utf8.encode " [5, 3.0]".toList) _ true
    (by with_unfolding_all rfl)

end Serializer
end WebrtcNativeDemo
