import WebrtcNativeDemo.JsonRoundTrip

/-!
# The encoding of what is dumped

The serializer only puts pieces behind each other: punctuation, margins, numbers and
escaped strings. What is kept by putting pieces together and holds for each of them
holds for the output. It is UTF-8 for every value and every handler, and "the result
consists of ASCII characters only" where `ensure_ascii` is set.
-/

namespace WebrtcNativeDemo

namespace Serializer

open Lexer JsonParser

def Ascii (s : Bytes) : Prop := ∀ b ∈ s, b.toNat < 0x80

theorem ascii_nil : Ascii [] := by simp [Ascii]

theorem ascii_cons {b : UInt8} {s : Bytes} : Ascii (b :: s) ↔ b.toNat < 0x80 ∧ Ascii s :=
  List.forall_mem_cons

theorem ascii_append {s t : Bytes} : Ascii (s ++ t) ↔ Ascii s ∧ Ascii t :=
  List.forall_mem_append

theorem ascii_replicate {c : UInt8} (hc : c.toNat < 0x80) (n : ℕ) :
    Ascii (List.replicate n c) :=
  List.forall_mem_replicate.mpr (.inr hc)

/-! ### Numbers -/

theorem decimal_ascii (n : ℕ) : Ascii (decimal n) := by
  intro d hd
  have hhigh : d.toNat ≤ 0x39 := UInt8.le_iff_toNat_le.mp (decimal_digits n d hd).2
  omega

theorem dumpUnsigned_ascii (u : UInt64) : Ascii (dumpUnsigned numberBuffer u) := by
  rw [dumpUnsigned_eq (by decide)]
  exact decimal_ascii _

theorem dumpInteger_ascii (i : Int64) : Ascii (dumpInteger numberBuffer i) := by
  rw [dumpInteger_eq (by decide)]
  split_ifs
  · exact ascii_cons.mpr ⟨by decide, decimal_ascii _⟩
  · exact decimal_ascii _

/-! ### Escaped strings -/

theorem unicodeEscape_ascii (n : ℕ) : Ascii (unicodeEscape n) := by
  have hdigit (n : ℕ) : (hexDigit (n % 16)).toNat < 0x80 := by
    have hall : ∀ n : Fin 16, (hexDigit n).toNat < 0x80 := by decide
    exact hall ⟨n % 16, Nat.mod_lt n (by decide)⟩
  simp only [unicodeEscape, ascii_cons, hdigit, ascii_nil, and_true]
  decide

theorem shortEscape_ascii {n : ℕ} {b : UInt8} (h : shortEscape n = some b) : b.toNat < 0x80 := by
  simp only [shortEscape] at h
  split_ifs at h <;> obtain rfl := Option.some.inj h <;> decide

theorem escapeChar_ascii (c : Char) : Ascii (escapeChar true c) := by
  unfold escapeChar
  split
  · rename_i b hb
    exact ascii_cons.mpr ⟨by decide, ascii_cons.mpr ⟨shortEscape_ascii hb, ascii_nil⟩⟩
  · split_ifs with hesc hsize
    · exact unicodeEscape_ascii _
    · exact ascii_append.mpr ⟨unicodeEscape_ascii _, unicodeEscape_ascii _⟩
    · have hc : c.toNat < 0x7F := by
        simp only [true_and, not_or, Nat.not_le] at hesc
        exact hesc.2
      have hbyte : (UInt8.ofNat c.toNat).toNat = c.toNat :=
        UInt8.toNat_ofNat_of_lt' (by rw [UInt8.size]; omega)
      rw [utf8EncodeChar_of_lt (b := UInt8.ofNat c.toNat) (by omega) hbyte.symm]
      exact ascii_cons.mpr ⟨by omega, ascii_nil⟩

theorem escapeAll_ascii (handler : ErrorHandler) (cs : List (Option Char)) :
    Ascii (escapeAll handler true cs) := by
  induction cs with
  | nil => exact ascii_nil
  | cons x cs ih =>
    rw [escapeAll, List.flatMap_cons]
    refine ascii_append.mpr ⟨?_, ih⟩
    cases x with
    | some c => exact escapeChar_ascii c
    | none =>
      simp only [escapeOne, replacement]
      split_ifs <;> simp [Ascii]

/-! ### Everything that is put together of such pieces -/

variable {F : Type} {lib : FloatLib F} {o : DumpOptions} {P : Bytes → Prop}

/-- `P` holds for what the output is put together of. -/
structure Pieces (lib : FloatLib F) (o : DumpOptions) (P : Bytes → Prop) : Prop where
  append : ∀ {s t}, P s → P t → P (s ++ t)
  ascii : ∀ {s}, Ascii s → P s
  escaped : ∀ {s out}, dumpEscaped o.errorHandler o.ensureAscii s = .ok out → P out
  digits : ∀ x, lib.isFinite x = true → P (lib.toChars x)

theorem Pieces.cons (h : Pieces lib o P) {b : UInt8} {s : Bytes} (hb : b.toNat < 0x80)
    (hs : P s) : P (b :: s) :=
  h.append (h.ascii (ascii_cons.mpr ⟨hb, ascii_nil⟩)) hs

theorem newline_ascii (o : DumpOptions) : Ascii (newline o) :=
  forall_mem_newline (by decide)

theorem keySeparator_ascii (o : DumpOptions) : Ascii (keySeparator o) := by
  unfold keySeparator
  split_ifs <;> simp [Ascii]

theorem innerIndent_ascii {indentString : Bytes} (h : Ascii indentString) (n : ℕ) :
    Ascii (innerIndent o indentString n) :=
  forall_mem_innerIndent (by decide) h n

theorem lineStart_ascii {indentString start : Bytes} {n : ℕ} (h : Ascii indentString)
    (hstart : lineStart o indentString n = .ok start) : Ascii start :=
  forall_mem_lineStart h (.inl (by decide)) hstart

theorem Pieces.dumpFloat (h : Pieces lib o P) (x : F) : P (dumpFloat lib x) := by
  unfold Serializer.dumpFloat
  split_ifs with hx
  · exact h.digits x hx
  · exact h.ascii (by simp [Ascii])

/-- What is written for `v` at any depth is as `P` says. -/
def Puts (lib : FloatLib F) (o : DumpOptions) (P : Bytes → Prop) (v : BasicJson F) : Prop :=
  ∀ currentIndent indentString out indentString', Ascii indentString →
    dump lib o v currentIndent indentString = .ok (out, indentString') →
      P out ∧ Ascii indentString'

theorem Pieces.dumpElements (h : Pieces lib o P) {vs : List (BasicJson F)}
    (ih : ∀ v ∈ vs, Puts lib o P v) {n : ℕ} {indentString body indentString' : Bytes}
    (hindent : Ascii indentString)
    (hbody : dumpElements lib o vs n indentString = .ok (body, indentString')) :
    P body ∧ Ascii indentString' := by
  induction vs generalizing indentString body with
  | nil =>
    obtain ⟨rfl, rfl⟩ := Prod.mk.inj (Except.ok.inj hbody)
    exact ⟨h.ascii ascii_nil, hindent⟩
  | cons v vs ihl =>
    obtain ⟨hv, hvs⟩ := List.forall_mem_cons.mp ih
    simp only [Serializer.dumpElements, Json.bind_ok] at hbody
    obtain ⟨start, hstart, ⟨text, indent⟩, htext, hbody⟩ := hbody
    have hstart := h.ascii (lineStart_ascii hindent hstart)
    obtain ⟨htext, hindent⟩ := hv n indentString text indent hindent htext
    split_ifs at hbody
    · obtain ⟨rfl, rfl⟩ := Prod.mk.inj (Except.ok.inj hbody)
      exact ⟨h.append hstart htext, hindent⟩
    · simp only [Json.bind_ok] at hbody
      obtain ⟨⟨rest, indent'⟩, hrest, hbody⟩ := hbody
      obtain ⟨rfl, rfl⟩ := Prod.mk.inj (Except.ok.inj hbody)
      obtain ⟨hrest, hindent⟩ := ihl hvs hindent hrest
      have hrest := h.cons (b := 0x2C) (by decide) (h.append (h.ascii (newline_ascii o)) hrest)
      exact ⟨h.append (h.append hstart htext) hrest, hindent⟩

theorem Pieces.dumpMembers (h : Pieces lib o P) {ms : List (Bytes × BasicJson F)}
    (ih : ∀ e ∈ ms, Puts lib o P e.2) {n : ℕ} {indentString body indentString' : Bytes}
    (hindent : Ascii indentString)
    (hbody : dumpMembers lib o ms n indentString = .ok (body, indentString')) :
    P body ∧ Ascii indentString' := by
  induction ms generalizing indentString body with
  | nil =>
    obtain ⟨rfl, rfl⟩ := Prod.mk.inj (Except.ok.inj hbody)
    exact ⟨h.ascii ascii_nil, hindent⟩
  | cons e ms ihl =>
    obtain ⟨k, v⟩ := e
    obtain ⟨hv, hms⟩ := List.forall_mem_cons.mp ih
    simp only [Serializer.dumpMembers, Json.bind_ok] at hbody
    obtain ⟨start, hstart, key, hkey, ⟨text, indent⟩, htext, hbody⟩ := hbody
    have hstart := h.ascii (lineStart_ascii hindent hstart)
    obtain ⟨htext, hindent⟩ := hv n indentString text indent hindent htext
    have hkey := h.append (h.escaped hkey) (h.ascii (keySeparator_ascii o))
    have hline : P (start ++ 0x22 :: key ++ keySeparator o ++ text) := by
      simpa using h.append hstart (h.cons (b := 0x22) (by decide) (h.append hkey htext))
    split_ifs at hbody
    · obtain ⟨rfl, rfl⟩ := Prod.mk.inj (Except.ok.inj hbody)
      exact ⟨hline, hindent⟩
    · simp only [Json.bind_ok] at hbody
      obtain ⟨⟨rest, indent'⟩, hrest, hbody⟩ := hbody
      obtain ⟨rfl, rfl⟩ := Prod.mk.inj (Except.ok.inj hbody)
      obtain ⟨hrest, hindent⟩ := ihl hms hindent hrest
      have hrest := h.cons (b := 0x2C) (by decide) (h.append (h.ascii (newline_ascii o)) hrest)
      exact ⟨h.append hline hrest, hindent⟩

/-- The brackets of a container and the lines that they stand on. -/
theorem Pieces.enclosed (h : Pieces lib o P) {a b : UInt8} (ha : a.toNat < 0x80)
    (hb : b.toNat < 0x80) {body last : Bytes} (hbody : P body) (hlast : Ascii last) :
    P (a :: (newline o ++ body) ++ (newline o ++ last ++ [b])) := by
  have hline := newline_ascii o
  have hend : Ascii (newline o ++ last ++ [b]) :=
    ascii_append.mpr ⟨ascii_append.mpr ⟨hline, hlast⟩, ascii_cons.mpr ⟨hb, ascii_nil⟩⟩
  exact h.append (h.cons ha (h.append (h.ascii hline) hbody)) (h.ascii hend)

theorem Pieces.dump (h : Pieces lib o P) (v : BasicJson F) : Puts lib o P v := by
  induction v using BasicJson.induction with
  | h v ih =>
    intro currentIndent indentString out indentString' hindent hout
    cases v with
    | null =>
      cases hout
      exact ⟨h.ascii (by simp [Ascii]), hindent⟩
    | boolean b =>
      cases b <;> cases hout <;> exact ⟨h.ascii (by simp [Ascii]), hindent⟩
    | numberInteger i =>
      cases hout
      exact ⟨h.ascii (dumpInteger_ascii i), hindent⟩
    | numberUnsigned u =>
      cases hout
      exact ⟨h.ascii (dumpUnsigned_ascii u), hindent⟩
    | numberFloat x =>
      cases hout
      exact ⟨h.dumpFloat x, hindent⟩
    | string s =>
      simp only [Serializer.dump, Json.bind_ok] at hout
      obtain ⟨text, htext, hout⟩ := hout
      obtain ⟨rfl, rfl⟩ := Prod.mk.inj (Except.ok.inj hout)
      have hquoted := h.append (h.escaped htext) (h.ascii (s := [0x22]) (by simp [Ascii]))
      exact ⟨h.cons (by decide) hquoted, hindent⟩
    | array elements =>
      cases elements with
      | nil =>
        cases hout
        exact ⟨h.ascii (by simp [Ascii]), hindent⟩
      | cons e elements =>
        simp only [Serializer.dump, Json.bind_ok] at hout
        obtain ⟨⟨body, indent⟩, hbody, last, hlast, hout⟩ := hout
        obtain ⟨rfl, rfl⟩ := Prod.mk.inj (Except.ok.inj hout)
        obtain ⟨hbody, hindent⟩ := h.dumpElements ih (innerIndent_ascii hindent _) hbody
        exact ⟨h.enclosed (by decide) (by decide) hbody (lineStart_ascii hindent hlast), hindent⟩
    | object members =>
      cases members with
      | nil =>
        cases hout
        exact ⟨h.ascii (by simp [Ascii]), hindent⟩
      | cons e members =>
        have ih : ∀ d ∈ e :: members, Puts lib o P d.2 :=
          fun d hd => ih d.2 (List.mem_map_of_mem hd)
        simp only [Serializer.dump, Json.bind_ok] at hout
        obtain ⟨⟨body, indent⟩, hbody, last, hlast, hout⟩ := hout
        obtain ⟨rfl, rfl⟩ := Prod.mk.inj (Except.ok.inj hout)
        obtain ⟨hbody, hindent⟩ := h.dumpMembers ih (innerIndent_ascii hindent _) hbody
        exact ⟨h.enclosed (by decide) (by decide) hbody (lineStart_ascii hindent hlast), hindent⟩

/-! ### UTF-8 and ASCII -/

theorem pieces_utf8 (hfloat : ∀ x, lib.isFinite x = true → Ascii (lib.toChars x)) :
    Pieces lib o Utf8.Valid where
  append hs ht := hs.append ht
  ascii hs := Utf8.valid_ascii hs
  escaped h := by
    obtain ⟨cs, -, rfl⟩ := dumpEscaped_writes h
    exact stringText_valid (escapeAll_text _ _ cs)
  digits x hx := Utf8.valid_ascii (hfloat x hx)

theorem pieces_ascii (hascii : o.ensureAscii = true)
    (hfloat : ∀ x, lib.isFinite x = true → Ascii (lib.toChars x)) : Pieces lib o Ascii where
  append hs ht := ascii_append.mpr ⟨hs, ht⟩
  ascii hs := hs
  escaped h := by
    obtain ⟨cs, -, rfl⟩ := dumpEscaped_writes h
    rw [hascii]
    exact escapeAll_ascii _ cs
  digits := hfloat

theorem wholeNumbers_ascii (x : Option ℕ) (_ : wholeNumbers.isFinite x = true) :
    Ascii (wholeNumbers.toChars x) :=
  ascii_append.mpr ⟨decimal_ascii _, by simp [Ascii]⟩

/-- Whatever bytes are in the strings and keys of `v`, and whichever handler it is: what
has been written is UTF-8, and only ASCII if that is asked for. -/
theorem dump_encoding (hfloat : ∀ x, lib.isFinite x = true → Ascii (lib.toChars x))
    (v : BasicJson F) (indent : Int32) (indentChar : UInt8) (hc : indentChar.toNat < 0x80)
    (ensureAscii : Bool) (handler : ErrorHandler) (out : Bytes)
    (h : v.dump lib indent indentChar ensureAscii handler = .ok out) :
    Utf8.Valid out ∧ (ensureAscii = true → Ascii out) := by
  rw [BasicJson.dump] at h
  obtain ⟨⟨text, indentString⟩, hdump, rfl⟩ := map_eq_ok.mp h
  have hindent := ascii_replicate hc 512
  refine ⟨((pieces_utf8 hfloat).dump v _ _ _ _ hindent hdump).1, fun hascii => ?_⟩
  refine ((pieces_ascii ?_ hfloat).dump v _ _ _ _ hindent hdump).1
  split_ifs <;> exact hascii

theorem dump_encoding_mixedArray :
    Utf8.Valid (Utf8.encode "[\n  3.0,\n  null,\n  7,\n  \"a\\ufffd\"\n]".toList) ∧
      Ascii (Utf8.encode "[\n  3.0,\n  null,\n  7,\n  \"a\\ufffd\"\n]".toList) :=
  (dump_encoding wholeNumbers_ascii mixedArray 2 0x20 (by decide) true .replace _
    (by decide +kernel)).imp_right fun h => h rfl

end Serializer
end WebrtcNativeDemo
