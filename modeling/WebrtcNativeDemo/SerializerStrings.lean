import WebrtcNativeDemo.Json
import WebrtcNativeDemo.JsonStrings

/-!
# Strings in the output of the serializer

`dump_escaped` of `nlohmann/json.hpp`: it decodes a string with a table of states, and
collects the escaped characters in a buffer of 512 bytes, which it writes out when a
further character might not fit.
-/

namespace WebrtcNativeDemo

inductive ErrorHandler
  | strict
  | replace
  | ignore
deriving DecidableEq, Repr

/-- The exception of the serializer, 316, and its undefined behaviour: a write behind the
end of `string_buffer`, a read behind the zero byte that ends `indent_string`. -/
inductive DumpFailure
  | typeError (message : String)
  | overflow
  | overread
deriving DecidableEq, Repr

namespace Serializer

def utf8Accept : ℕ := 0

def utf8Reject : ℕ := 1

def utf8d : List ℕ := [
  0, 0, 0, 0, 0, 0, 0, 0, 0, 0, 0, 0, 0, 0, 0, 0, 0, 0, 0, 0, 0, 0, 0, 0, 0, 0, 0, 0, 0, 0, 0, 0,
  0, 0, 0, 0, 0, 0, 0, 0, 0, 0, 0, 0, 0, 0, 0, 0, 0, 0, 0, 0, 0, 0, 0, 0, 0, 0, 0, 0, 0, 0, 0, 0,
  0, 0, 0, 0, 0, 0, 0, 0, 0, 0, 0, 0, 0, 0, 0, 0, 0, 0, 0, 0, 0, 0, 0, 0, 0, 0, 0, 0, 0, 0, 0, 0,
  0, 0, 0, 0, 0, 0, 0, 0, 0, 0, 0, 0, 0, 0, 0, 0, 0, 0, 0, 0, 0, 0, 0, 0, 0, 0, 0, 0, 0, 0, 0, 0,
  1, 1, 1, 1, 1, 1, 1, 1, 1, 1, 1, 1, 1, 1, 1, 1, 9, 9, 9, 9, 9, 9, 9, 9, 9, 9, 9, 9, 9, 9, 9, 9,
  7, 7, 7, 7, 7, 7, 7, 7, 7, 7, 7, 7, 7, 7, 7, 7, 7, 7, 7, 7, 7, 7, 7, 7, 7, 7, 7, 7, 7, 7, 7, 7,
  8, 8, 2, 2, 2, 2, 2, 2, 2, 2, 2, 2, 2, 2, 2, 2, 2, 2, 2, 2, 2, 2, 2, 2, 2, 2, 2, 2, 2, 2, 2, 2,
  0xA, 0x3, 0x3, 0x3, 0x3, 0x3, 0x3, 0x3, 0x3, 0x3, 0x3, 0x3, 0x3, 0x4, 0x3, 0x3,
  0xB, 0x6, 0x6, 0x6, 0x5, 0x8, 0x8, 0x8, 0x8, 0x8, 0x8, 0x8, 0x8, 0x8, 0x8, 0x8,
  0x0, 0x1, 0x2, 0x3, 0x5, 0x8, 0x7, 0x1, 0x1, 0x1, 0x4, 0x6, 0x1, 0x1, 0x1, 0x1,
  1, 1, 1, 1, 1, 1, 1, 1, 1, 1, 1, 1, 1, 1, 1, 1, 1, 0, 1, 1, 1, 1, 1, 0, 1, 0, 1, 1, 1, 1, 1, 1,
  1, 2, 1, 1, 1, 1, 1, 2, 1, 2, 1, 1, 1, 1, 1, 1, 1, 1, 1, 1, 1, 1, 1, 2, 1, 1, 1, 1, 1, 1, 1, 1,
  1, 2, 1, 1, 1, 1, 1, 1, 1, 2, 1, 1, 1, 1, 1, 1, 1, 1, 1, 1, 1, 1, 1, 3, 1, 3, 1, 1, 1, 1, 1, 1,
  1, 3, 1, 1, 1, 1, 1, 3, 1, 3, 1, 1, 1, 1, 1, 1, 1, 3, 1, 1, 1, 1, 1, 1, 1, 1, 1, 1, 1, 1, 1, 1]

/-- The new state and code point. -/
def decode (state codep : ℕ) (byte : UInt8) : ℕ × ℕ :=
  let type := utf8d.getD byte.toNat 0
  let codep :=
    if state ≠ utf8Accept then (byte.toNat &&& 0x3F) ||| (codep <<< 6)
    else (0xFF >>> type) &&& byte.toNat
  (utf8d.getD (256 + state * 16 + type) 0, codep)

/-- The variables of `dump_escaped`, the bytes in `string_buffer` and what was written. -/
structure Escaping where
  codepoint : ℕ := 0
  state : ℕ := utf8Accept
  buffer : Bytes := []
  bytesAfterLastAccept : ℕ := 0
  undumpedChars : ℕ := 0
  o : Bytes := []

namespace Escaping

/-- Puts `s` into `string_buffer`; `snprintf` writes one byte more than it keeps. -/
def put (st : Escaping) (s : Bytes) (size : ℕ) : Except DumpFailure Escaping :=
  if st.buffer.length + size ≤ 512 then .ok { st with buffer := st.buffer ++ s }
  else .error .overflow

def flush (st : Escaping) : Escaping :=
  if 512 - st.buffer.length < 13 then { st with o := st.o ++ st.buffer, buffer := [] } else st

end Escaping

def hexDigit (n : ℕ) : UInt8 := UInt8.ofNat (if n < 10 then 0x30 + n else 0x57 + n)

/-- `\u%04x` of a 16 bit number. -/
def unicodeEscape (n : ℕ) : Bytes :=
  [0x5C, 0x75, hexDigit (n / 0x1000 % 16), hexDigit (n / 0x100 % 16), hexDigit (n / 0x10 % 16),
    hexDigit (n % 16)]

def shortEscape (codepoint : ℕ) : Option UInt8 :=
  if codepoint = 0x08 then some 0x62
  else if codepoint = 0x09 then some 0x74
  else if codepoint = 0x0A then some 0x6E
  else if codepoint = 0x0C then some 0x66
  else if codepoint = 0x0D then some 0x72
  else if codepoint = 0x22 then some 0x22
  else if codepoint = 0x5C then some 0x5C
  else none

def hexByte (b : UInt8) : String :=
  String.ofList ([Nat.digitChar (b.toNat / 16), Nat.digitChar (b.toNat % 16)].map Char.toUpper)

def replacement (ensureAscii : Bool) : Bytes :=
  if ensureAscii then [0x5C, 0x75, 0x66, 0x66, 0x66, 0x64] else [0xEF, 0xBF, 0xBD]

variable (handler : ErrorHandler) (ensureAscii : Bool)

/-- A new code point, of which `byte` is the last one. -/
def escape (st : Escaping) (byte : UInt8) : Except DumpFailure Escaping :=
  match shortEscape st.codepoint with
  | some c => st.put [0x5C, c] 2
  | none =>
    if st.codepoint ≤ 0x1F ∨ ensureAscii ∧ 0x7F ≤ st.codepoint then
      if st.codepoint ≤ 0xFFFF then st.put (unicodeEscape st.codepoint) 7
      else
        st.put (unicodeEscape (0xD7C0 + (st.codepoint >>> 10)) ++
          unicodeEscape (0xDC00 + (st.codepoint &&& 0x3FF))) 13
    else st.put [byte] 1

def accept (st : Escaping) (byte : UInt8) : Except DumpFailure Escaping := do
  let st ← escape ensureAscii st byte
  let st := st.flush
  return { st with bytesAfterLastAccept := st.buffer.length, undumpedChars := 0 }

def reject (st : Escaping) (i : ℕ) (byte : UInt8) : Except DumpFailure Escaping :=
  let st' := { st with buffer := st.buffer.take st.bytesAfterLastAccept }
  match handler with
  | .strict => .error (.typeError
      ("invalid UTF-8 byte at index " ++ toString i ++ ": 0x" ++ hexByte byte))
  | .ignore => .ok { st' with undumpedChars := 0, state := utf8Accept }
  | .replace => do
    let st ← st'.put (replacement ensureAscii) (replacement ensureAscii).length
    let st := st.flush
    return { st with
      bytesAfterLastAccept := st.buffer.length, undumpedChars := 0, state := utf8Accept }

def incomplete (st : Escaping) (byte : UInt8) : Except DumpFailure Escaping := do
  let st ← if ensureAscii then .ok st else st.put [byte] 1
  return { st with undumpedChars := st.undumpedChars + 1 }

def Escaping.decode (st : Escaping) (byte : UInt8) : Escaping :=
  let (state, codepoint) := Serializer.decode st.state st.codepoint byte
  { st with state, codepoint }

variable {handler ensureAscii}

theorem reject_undumpedChars {st st' : Escaping} {i : ℕ} {byte : UInt8}
    (h : reject handler ensureAscii st i byte = .ok st') : st'.undumpedChars = 0 := by
  cases handler with
  | strict => cases h
  | ignore =>
    cases h
    rfl
  | replace =>
    obtain ⟨st₁, -, h⟩ := Json.bind_ok.mp h
    cases h
    rfl

variable (handler ensureAscii)

/-- The loop from the byte at `i` on. A byte that does not fit behind those before it is
read again, for itself. -/
def escapeFrom (st : Escaping) (i : ℕ) (s : Bytes) : Except DumpFailure Escaping :=
  match s with
  | [] => .ok st
  | byte :: rest =>
    let st := st.decode byte
    if st.state = utf8Accept then
      match accept ensureAscii st byte with
      | .error failure => .error failure
      | .ok st => escapeFrom st (i + 1) rest
    else if st.state = utf8Reject then
      match _h : reject handler ensureAscii st i byte with
      | .error failure => .error failure
      | .ok st' =>
        if 0 < st.undumpedChars then escapeFrom st' i (byte :: rest)
        else escapeFrom st' (i + 1) rest
    else
      match incomplete ensureAscii st byte with
      | .error failure => .error failure
      | .ok st => escapeFrom st (i + 1) rest
termination_by 2 * s.length + min st.undumpedChars 1
decreasing_by
  · simp only [List.length_cons]
    omega
  · rw [reject_undumpedChars ‹_›, Nat.zero_min]
    exact Nat.add_lt_add_left (Nat.lt_min.mpr ⟨‹0 < st.undumpedChars›, Nat.zero_lt_one⟩) _
  · simp only [List.length_cons]
    omega
  · simp only [List.length_cons]
    omega

/-- What is written behind the loop over `s`. -/
def finish (s : Bytes) (st : Escaping) : Except DumpFailure Bytes :=
  if st.state = utf8Accept then .ok (st.o ++ st.buffer)
  else
    match handler with
    | .strict => .error (.typeError
        ("incomplete UTF-8 string; last byte: 0x" ++ hexByte (s.getLast?.getD 0)))
    | .ignore => .ok (st.o ++ st.buffer.take st.bytesAfterLastAccept)
    | .replace =>
      .ok (st.o ++ st.buffer.take st.bytesAfterLastAccept ++ replacement ensureAscii)

/-- `dump_escaped`: what it writes in all. -/
def dumpEscaped (s : Bytes) : Except DumpFailure Bytes :=
  escapeFrom handler ensureAscii {} 0 s >>= finish handler ensureAscii s

/-! ### The table of states -/

/-- What the decoder waits for in a state that is not the rejecting one. -/
def pendingRanges : ℕ → Option (List Utf8.Range)
  | 0 => some []
  | 2 => some [Utf8.tail]
  | 3 => some [Utf8.tail, Utf8.tail]
  | 4 => some [⟨0xA0, 0xBF⟩, Utf8.tail]
  | 5 => some [⟨0x80, 0x9F⟩, Utf8.tail]
  | 6 => some [⟨0x90, 0xBF⟩, Utf8.tail, Utf8.tail]
  | 7 => some [Utf8.tail, Utf8.tail, Utf8.tail]
  | 8 => some [⟨0x80, 0x8F⟩, Utf8.tail, Utf8.tail]
  | _ => none

theorem pendingRanges_lt {state : ℕ} {q : List Utf8.Range} (h : pendingRanges state = some q) :
    state < 9 := by
  unfold pendingRanges at h
  split at h <;> first | omega | cases h

theorem pendingRanges_accept {state : ℕ} {q : List Utf8.Range}
    (h : pendingRanges state = some q) : state = utf8Accept ↔ q = [] := by
  unfold pendingRanges at h
  split at h <;> first | (obtain rfl := Option.some.inj h; simp [utf8Accept]) | cases h

theorem decode_state {state codep : ℕ} {byte : UInt8} {q : List Utf8.Range}
    (h : pendingRanges state = some q) :
    (Utf8.next q byte = none ∧ (decode state codep byte).1 = utf8Reject) ∨
      ∃ q', Utf8.next q byte = some q' ∧ pendingRanges (decode state codep byte).1 = some q' := by
  have hall : ∀ (s : Fin 9) (n : Fin 256), (pendingRanges s).all fun q =>
      (Utf8.next q (UInt8.ofNat n)).elim ((decode s 0 (UInt8.ofNat n)).1 = utf8Reject)
        fun q' => pendingRanges (decode s 0 (UInt8.ofNat n)).1 = some q' := by
    decide +kernel
  have hb := hall ⟨state, pendingRanges_lt h⟩ ⟨byte.toNat, byte.toNat_lt⟩
  simp only [h, Option.all_some, UInt8.ofNat_toNat] at hb
  have hcodep : (decode state codep byte).1 = (decode state 0 byte).1 := rfl
  rw [hcodep]
  cases hn : Utf8.next q byte with
  | none => exact .inl ⟨rfl, by simpa [hn] using hb⟩
  | some q' => exact .inr ⟨q', rfl, by simpa [hn] using hb⟩

theorem decode_lead {codep : ℕ} {byte : UInt8} {q : List Utf8.Range}
    (h : Utf8.next [] byte = some q) : (decode utf8Accept codep byte).2 = Utf8.leadBits byte := by
  have hall : ∀ n : Fin 256, (Utf8.ranges (UInt8.ofNat n)).isSome →
      (decode utf8Accept 0 (UInt8.ofNat n)).2 = Utf8.leadBits (UInt8.ofNat n) := by
    decide +kernel
  have hb := hall ⟨byte.toNat, byte.toNat_lt⟩
  rw [UInt8.ofNat_toNat] at hb
  exact hb (by rw [show Utf8.ranges byte = some q from h]; rfl)

theorem decode_tail {state codep : ℕ} {byte : UInt8} (hs : state ≠ utf8Accept)
    (hb : Utf8.tail.Has byte) :
    (decode state codep byte).2 = codep * 64 + (byte.toNat - 0x80) := by
  have hand : byte.toNat &&& 0x3F = byte.toNat % 0x40 := Nat.and_two_pow_sub_one_eq_mod _ 6
  rw [Utf8.has_tail] at hb
  simp only [decode, if_pos hs, hand, Nat.shiftLeft_eq]
  rw [Nat.or_comm, Lexer.or_eq_add 6 (by omega) (by omega)]
  omega

theorem pendingRanges_tail {state : ℕ} {r : Utf8.Range} {q : List Utf8.Range} {byte : UInt8}
    (h : pendingRanges state = some (r :: q)) (hb : r.Has byte) : Utf8.tail.Has byte := by
  have hr : 0x80 ≤ r.low.toNat ∧ r.high.toNat ≤ 0xBF := by
    unfold pendingRanges at h
    split at h <;> first
      | (obtain ⟨rfl, -⟩ := List.cons.inj (Option.some.inj h); decide)
      | cases h
  rw [Utf8.has_tail]
  simp only [Utf8.Range.Has, UInt8.le_iff_toNat_le] at hb
  omega

/-! ### One character -/

/-- How a character is written. -/
def escapeChar (ensureAscii : Bool) (c : Char) : Bytes :=
  match shortEscape c.toNat with
  | some b => [0x5C, b]
  | none =>
    if c.toNat ≤ 0x1F ∨ ensureAscii ∧ 0x7F ≤ c.toNat then
      if c.toNat ≤ 0xFFFF then unicodeEscape c.toNat
      else
        unicodeEscape (0xD7C0 + (c.toNat >>> 10)) ++ unicodeEscape (0xDC00 + (c.toNat &&& 0x3FF))
    else String.utf8EncodeChar c

/-- `pend` was read since the last character, `out` stands for what was before it. -/
structure Reading (ensureAscii : Bool) (st : Escaping) (out pend : Bytes) (q : List Utf8.Range) :
    Prop where
  pending : Utf8.Pending pend q
  state : pendingRanges st.state = some q
  codepoint : pend ≠ [] → st.codepoint = Utf8.codePoint pend
  undumped : st.undumpedChars = pend.length
  accepted : st.bytesAfterLastAccept ≤ 499
  buffer : ∃ acc, acc.length = st.bytesAfterLastAccept ∧
    st.buffer = acc ++ (if ensureAscii then [] else pend) ∧ out = st.o ++ acc

variable {handler ensureAscii} {st : Escaping} {out pend : Bytes} {q : List Utf8.Range}

theorem Reading.decode_state (h : Reading ensureAscii st out pend q) (byte : UInt8) :
    (Utf8.next q byte = none ∧ (st.decode byte).state = utf8Reject) ∨
      ∃ q', Utf8.next q byte = some q' ∧ pendingRanges (st.decode byte).state = some q' :=
  @Serializer.decode_state st.state st.codepoint byte q h.state

theorem Reading.decode_codepoint {q' : List Utf8.Range} {byte : UInt8}
    (h : Reading ensureAscii st out pend q) (hn : Utf8.next q byte = some q') :
    (st.decode byte).codepoint = Utf8.codePoint (pend ++ [byte]) := by
  have hcode : (st.decode byte).codepoint = (decode st.state st.codepoint byte).2 := rfl
  rw [hcode]
  by_cases hpend : pend = []
  · subst hpend
    have hq : q = [] := by cases h.pending; rfl
    subst hq
    rw [(pendingRanges_accept h.state).mpr rfl, decode_lead hn]
    rfl
  · cases q with
    | nil => exact absurd h.pending.eq_nil hpend
    | cons r q =>
      have hs : st.state ≠ utf8Accept := fun hs =>
        absurd ((pendingRanges_accept h.state).mp hs) (by simp)
      have hb : r.Has byte := by
        simp only [Utf8.next] at hn
        split_ifs at hn with hb
        exact hb
      rw [decode_tail hs (pendingRanges_tail h.state hb), h.codepoint hpend,
        Utf8.codePoint_append byte hpend]

theorem single_byte {c : Char} {byte : UInt8} (hc : c.toNat < 0x80)
    (h : pend ++ [byte] = String.utf8EncodeChar c) : pend = [] := by
  have hb : (UInt8.ofNat c.toNat).toNat = c.toNat := by
    rw [UInt8.toNat_ofNat']
    omega
  have hlt : (UInt8.ofNat c.toNat).toNat < 0x80 := by omega
  rw [Lexer.utf8EncodeChar_of_lt hlt hb.symm] at h
  cases pend with
  | nil => rfl
  | cons b pend => simp at h

theorem shortEscape_lt {n : ℕ} {b : UInt8} (h : shortEscape n = some b) : n < 0x80 := by
  simp only [shortEscape] at h
  split_ifs at h <;> omega

theorem escape_eq {acc : Bytes} {c : Char} {byte : UInt8} (hacc : acc.length ≤ 499)
    (hpend : pend.length ≤ 3) (hbuffer : st.buffer = acc ++ (if ensureAscii then [] else pend))
    (hcode : st.codepoint = c.toNat) (hc : pend ++ [byte] = String.utf8EncodeChar c) :
    escape ensureAscii st byte = .ok { st with buffer := acc ++ escapeChar ensureAscii c } := by
  have hplain (s : Bytes) (size : ℕ) (hsize : size ≤ 13) (hempty : ensureAscii ∨ pend = []) :
      st.put s size = .ok { st with buffer := acc ++ s } := by
    have hacc' : st.buffer = acc := by
      rw [hbuffer]
      rcases hempty with hempty | rfl <;> simp_all
    rw [Escaping.put, hacc', if_pos (by omega)]
  simp only [escape, escapeChar, ← hcode]
  cases hs : shortEscape st.codepoint with
  | some b => exact hplain _ 2 (by omega) (.inr (single_byte (hcode ▸ shortEscape_lt hs) hc))
  | none =>
    simp only
    split_ifs with hesc hsize
    · exact hplain _ 7 (by omega)
        (hesc.elim (fun h => .inr (single_byte (by omega) hc)) fun h => .inl h.1)
    · exact hplain _ 13 (by omega) (hesc.elim (fun h => absurd h (by omega)) fun h => .inl h.1)
    · rw [not_or, not_and] at hesc
      cases ensureAscii with
      | true =>
        have := hesc.2 rfl
        obtain rfl := single_byte (by omega) hc
        rw [← hc]
        exact hplain _ 1 (by omega) (.inl rfl)
      | false =>
        have hlen : st.buffer.length + 1 ≤ 512 := by
          rw [hbuffer]
          simp
          omega
        rw [Escaping.put, if_pos hlen, hbuffer, ← hc]
        simp

theorem flush_spec (h : st.buffer.length ≤ 512) :
    st.flush.o ++ st.flush.buffer = st.o ++ st.buffer ∧ st.flush.buffer.length ≤ 499 ∧
      st.flush.state = st.state ∧ st.flush.codepoint = st.codepoint := by
  unfold Escaping.flush
  split_ifs with hfull
  · simp
  · exact ⟨rfl, by omega, rfl, rfl⟩

variable (ensureAscii) in
theorem escapeChar_length (c : Char) : (escapeChar ensureAscii c).length ≤ 12 := by
  unfold escapeChar
  split
  · simp
  · split_ifs
    · simp [unicodeEscape]
    · simp [unicodeEscape]
    · simp only [String.utf8EncodeChar]
      split_ifs <;> simp

theorem accept_spec {c : Char} {byte : UInt8} (h : Reading ensureAscii st out pend q)
    (hn : Utf8.next q byte = some []) (hstate : pendingRanges (st.decode byte).state = some [])
    (hc : pend ++ [byte] = String.utf8EncodeChar c) :
    ∃ st', accept ensureAscii (st.decode byte) byte = .ok st' ∧
      Reading ensureAscii st' (out ++ escapeChar ensureAscii c) [] [] := by
  obtain ⟨acc, hacc, hbuffer, rfl⟩ := h.buffer
  have haccepted := h.accepted
  have hcode : (st.decode byte).codepoint = c.toNat := by
    rw [h.decode_codepoint hn, hc, Utf8.codePoint_char]
  have hescape : escape ensureAscii (st.decode byte) byte =
      .ok { st.decode byte with buffer := acc ++ escapeChar ensureAscii c } :=
    escape_eq (by omega) h.pending.length_le hbuffer hcode hc
  generalize hst : ({ st.decode byte with
    buffer := acc ++ escapeChar ensureAscii c } : Escaping) = st₁ at hescape
  have hlen : st₁.buffer.length ≤ 512 := by
    have := escapeChar_length ensureAscii c
    rw [← hst, List.length_append]
    omega
  obtain ⟨hout, hroom, hs, -⟩ := flush_spec hlen
  refine ⟨_, by rw [accept, hescape]; rfl, .start, ?_, by simp, rfl, hroom, ?_⟩
  · show pendingRanges st₁.flush.state = some []
    rw [hs, ← hst]
    exact hstate
  · refine ⟨st₁.flush.buffer, rfl, by cases ensureAscii <;> simp, ?_⟩
    show _ = st₁.flush.o ++ st₁.flush.buffer
    rw [hout, ← hst, List.append_assoc]
    rfl

theorem incomplete_spec {q' : List Utf8.Range} {byte : UInt8}
    (h : Reading ensureAscii st out pend q) (hn : Utf8.next q byte = some q')
    (hstate : pendingRanges (st.decode byte).state = some q')
    (hpend : Utf8.Pending (pend ++ [byte]) q') :
    ∃ st', incomplete ensureAscii (st.decode byte) byte = .ok st' ∧
      Reading ensureAscii st' out (pend ++ [byte]) q' := by
  obtain ⟨acc, hacc, hbuffer, rfl⟩ := h.buffer
  have haccepted := h.accepted
  have hlen := hpend.length_le
  have hundumped : (st.decode byte).undumpedChars + 1 = (pend ++ [byte]).length := by
    rw [List.length_append, ← h.undumped]
    rfl
  cases ensureAscii with
  | true =>
    exact ⟨_, rfl, hpend, hstate, fun _ => h.decode_codepoint hn, hundumped, haccepted,
      acc, hacc, hbuffer, rfl⟩
  | false =>
    have hput : (st.decode byte).put [byte] 1 = .ok { st.decode byte with
        buffer := acc ++ (pend ++ [byte]) } := by
      have hb : (st.decode byte).buffer = acc ++ pend := hbuffer
      rw [Escaping.put, hb, if_pos, List.append_assoc]
      simp at hlen ⊢
      omega
    exact ⟨{ st.decode byte with
        buffer := acc ++ (pend ++ [byte])
        undumpedChars := (st.decode byte).undumpedChars + 1 },
      by rw [incomplete, if_neg (by simp), hput]; rfl, hpend, hstate,
      fun _ => h.decode_codepoint hn, hundumped, haccepted, acc, hacc, rfl, rfl⟩

/-- What stands in the output for a character, or for a piece that is none. -/
def escapeOne (handler : ErrorHandler) (ensureAscii : Bool) : Option Char → Bytes
  | some c => escapeChar ensureAscii c
  | none => if handler = .replace then replacement ensureAscii else []

def escapeAll (handler : ErrorHandler) (ensureAscii : Bool) (cs : List (Option Char)) : Bytes :=
  cs.flatMap (escapeOne handler ensureAscii)

theorem reject_spec {i : ℕ} {byte : UInt8} (h : Reading ensureAscii st out pend q)
    (hhandler : handler ≠ .strict) :
    ∃ st', reject handler ensureAscii (st.decode byte) i byte = .ok st' ∧
      Reading ensureAscii st' (out ++ escapeOne handler ensureAscii none) [] [] := by
  obtain ⟨acc, hacc, hbuffer, rfl⟩ := h.buffer
  have haccepted := h.accepted
  have htake : (st.decode byte).buffer.take (st.decode byte).bytesAfterLastAccept = acc := by
    show st.buffer.take st.bytesAfterLastAccept = acc
    rw [hbuffer, ← hacc, List.take_left]
  cases handler with
  | strict => exact absurd rfl hhandler
  | ignore =>
    refine ⟨_, rfl, .start, rfl, by simp, rfl, haccepted, acc, hacc, ?_, ?_⟩
    · rw [htake]
      cases ensureAscii <;> simp
    · show st.o ++ acc ++ [] = st.o ++ acc
      simp
  | replace =>
    have hreplacement : (replacement ensureAscii).length ≤ 6 := by
      cases ensureAscii <;> decide
    generalize hst : ({ st.decode byte with
      buffer := acc ++ replacement ensureAscii } : Escaping) = st₁
    have hput : ({ st.decode byte with buffer := acc } : Escaping).put (replacement ensureAscii)
        (replacement ensureAscii).length = .ok st₁ := by
      rw [Escaping.put, if_pos (by show acc.length + _ ≤ _; omega), ← hst]
    have hlen : st₁.buffer.length ≤ 512 := by
      rw [← hst, List.length_append]
      omega
    obtain ⟨hout, hroom, -, -⟩ := flush_spec hlen
    refine ⟨_, by simp only [reject, htake, hput]; rfl, .start, rfl, by simp, rfl, hroom,
      st₁.flush.buffer, rfl, by cases ensureAscii <;> simp, ?_⟩
    show _ = st₁.flush.o ++ st₁.flush.buffer
    rw [hout, ← hst, List.append_assoc]
    rfl

/-! ### The loop -/

theorem escapeFrom_accept {st' : Escaping} {i : ℕ} {byte : UInt8} {rest : Bytes}
    (hs : (st.decode byte).state = utf8Accept)
    (h : accept ensureAscii (st.decode byte) byte = .ok st') :
    escapeFrom handler ensureAscii st i (byte :: rest) =
      escapeFrom handler ensureAscii st' (i + 1) rest := by
  rw [escapeFrom]
  simp only [if_pos hs, h]

theorem escapeFrom_incomplete {st' : Escaping} {i : ℕ} {byte : UInt8} {rest : Bytes}
    (hs : (st.decode byte).state ≠ utf8Accept) (hs' : (st.decode byte).state ≠ utf8Reject)
    (h : incomplete ensureAscii (st.decode byte) byte = .ok st') :
    escapeFrom handler ensureAscii st i (byte :: rest) =
      escapeFrom handler ensureAscii st' (i + 1) rest := by
  rw [escapeFrom]
  simp only [if_neg hs, if_neg hs', h]

theorem escapeFrom_reject {st' : Escaping} {i : ℕ} {byte : UInt8} {rest : Bytes}
    (hs : (st.decode byte).state = utf8Reject)
    (h : reject handler ensureAscii (st.decode byte) i byte = .ok st') :
    escapeFrom handler ensureAscii st i (byte :: rest) =
      if 0 < st.undumpedChars then escapeFrom handler ensureAscii st' i (byte :: rest)
      else escapeFrom handler ensureAscii st' (i + 1) rest := by
  have hs' : (st.decode byte).state ≠ utf8Accept := by
    rw [hs]
    decide
  rw [escapeFrom]
  simp only [if_neg hs', if_pos hs]
  split
  · rename_i heq
    cases heq.symm.trans h
  · rename_i heq
    obtain rfl := Except.ok.inj (heq.symm.trans h)
    rfl

theorem escapeFrom_strict {i : ℕ} {byte : UInt8} {rest : Bytes}
    (hs : (st.decode byte).state = utf8Reject) :
    escapeFrom .strict ensureAscii st i (byte :: rest) = .error (.typeError
      ("invalid UTF-8 byte at index " ++ toString i ++ ": 0x" ++ hexByte byte)) := by
  have hs' : (st.decode byte).state ≠ utf8Accept := by
    rw [hs]
    decide
  rw [escapeFrom]
  simp only [if_neg hs', if_pos hs]
  split
  · rename_i heq
    cases heq
    rfl
  · rename_i heq
    cases heq

/-- What comes of text whose repair is `cs`, behind `out`. -/
structure Outcome (handler : ErrorHandler) (ensureAscii : Bool) (out : Bytes)
    (cs : List (Option Char)) (result : Except DumpFailure Bytes) : Prop where
  throws : handler = .strict → none ∈ cs → ∃ message, result = .error (.typeError message)
  writes : (handler = .strict → none ∉ cs) → result = .ok (out ++ escapeAll handler ensureAscii cs)

theorem Outcome.cons {x : Option Char} {cs : List (Option Char)}
    {result : Except DumpFailure Bytes} (hx : x = none → handler ≠ .strict)
    (h : Outcome handler ensureAscii (out ++ escapeOne handler ensureAscii x) cs result) :
    Outcome handler ensureAscii out (x :: cs) result := by
  constructor
  · intro hstrict hmem
    rcases List.mem_cons.mp hmem with rfl | hmem
    · exact absurd hstrict (hx rfl)
    · exact h.throws hstrict hmem
  · intro hno
    rw [h.writes fun hstrict hmem => hno hstrict (List.mem_cons_of_mem _ hmem), escapeAll,
      escapeAll, List.flatMap_cons, List.append_assoc]

theorem Outcome.strict {cs : List (Option Char)} {message : String} :
    Outcome .strict ensureAscii out (none :: cs) (.error (.typeError message)) :=
  ⟨fun _ _ => ⟨message, rfl⟩, fun hno => absurd List.mem_cons_self (hno rfl)⟩

theorem finish_spec (s : Bytes) (h : Reading ensureAscii st out pend q) :
    ∃ cs, Utf8.Repaired pend cs ∧
      Outcome handler ensureAscii out cs (finish handler ensureAscii s st) := by
  obtain ⟨acc, hacc, hbuffer, rfl⟩ := h.buffer
  by_cases hpend : pend = []
  · subst hpend
    have hq : q = [] := by cases h.pending; rfl
    refine ⟨[], .nil, by simp, fun _ => ?_⟩
    simp only [finish, if_pos ((pendingRanges_accept h.state).mpr hq), hbuffer]
    cases ensureAscii <;> simp [escapeAll]
  · have hs : st.state ≠ utf8Accept := by
      intro hs
      obtain rfl := (pendingRanges_accept h.state).mp hs
      exact hpend h.pending.eq_nil
    have htake : st.buffer.take st.bytesAfterLastAccept = acc := by
      rw [hbuffer, ← hacc, List.take_left]
    refine ⟨[none], by simpa using Utf8.Repaired.piece (h.pending.truncated_end hpend) .nil, ?_⟩
    simp only [finish, if_neg hs, htake]
    cases handler with
    | strict => exact .strict
    | ignore | replace =>
      constructor
      · intro hstrict
        cases hstrict
      · intro _
        simp [escapeAll, escapeOne]

theorem escapeFrom_spec (whole : Bytes) {i : ℕ} {s : Bytes}
    (h : Reading ensureAscii st out pend q) :
    ∃ cs, Utf8.Repaired (pend ++ s) cs ∧ Outcome handler ensureAscii out cs
      (escapeFrom handler ensureAscii st i s >>= finish handler ensureAscii whole) := by
  induction s generalizing st out pend q i with
  | nil =>
    rw [List.append_nil, escapeFrom]
    exact finish_spec whole h
  | cons byte rest ih =>
    -- a byte that fits: the character is complete, or waits for more
    have hnext {st : Escaping} {out pend : Bytes} {q q' : List Utf8.Range} {i : ℕ}
        (h : Reading ensureAscii st out pend q) (hn : Utf8.next q byte = some q')
        (hstate : pendingRanges (st.decode byte).state = some q') :
        ∃ cs, Utf8.Repaired (pend ++ byte :: rest) cs ∧ Outcome handler ensureAscii out cs
          (escapeFrom handler ensureAscii st i (byte :: rest) >>=
            finish handler ensureAscii whole) := by
      obtain ⟨rfl, c, hc⟩ | ⟨hne, hpend⟩ := h.pending.step hn
      · obtain ⟨st', haccept, h'⟩ := accept_spec h hn hstate hc
        obtain ⟨cs, hcs, hout⟩ := ih h'
        refine ⟨some c :: cs, by simpa [← hc] using Utf8.Repaired.char (c := c) hcs, ?_⟩
        rw [escapeFrom_accept ((pendingRanges_accept hstate).mpr rfl) haccept]
        exact hout.cons (by simp)
      · obtain ⟨st', hincomplete, h'⟩ := incomplete_spec h hn hstate hpend
        obtain ⟨cs, hcs, hout⟩ := ih h'
        refine ⟨cs, by simpa using hcs, ?_⟩
        have hs : (st.decode byte).state ≠ utf8Accept := fun hs =>
          hne ((pendingRanges_accept hstate).mp hs)
        have hs' : (st.decode byte).state ≠ utf8Reject := by
          intro hs'
          rw [hs'] at hstate
          cases hstate
        rwa [escapeFrom_incomplete hs hs' hincomplete]
    -- a byte behind a complete character
    have hstart {st : Escaping} {out : Bytes} {i : ℕ} (h : Reading ensureAscii st out [] []) :
        ∃ cs, Utf8.Repaired (byte :: rest) cs ∧ Outcome handler ensureAscii out cs
          (escapeFrom handler ensureAscii st i (byte :: rest) >>=
            finish handler ensureAscii whole) := by
      obtain ⟨hn, hs⟩ | ⟨q', hn, hstate⟩ := h.decode_state byte
      · obtain ⟨-, htrunc⟩ | ⟨hne, -⟩ := h.pending.truncated (t := rest) hn
        · by_cases hhandler : handler = .strict
          · subst hhandler
            obtain ⟨cs, hcs⟩ := Utf8.exists_repaired rest
            refine ⟨none :: cs, .piece htrunc hcs, ?_⟩
            rw [escapeFrom_strict hs]
            exact .strict
          · obtain ⟨st', hreject, h'⟩ := reject_spec (i := i) h hhandler
            obtain ⟨cs, hcs, hout⟩ := ih h'
            refine ⟨none :: cs, .piece htrunc hcs, ?_⟩
            rw [escapeFrom_reject hs hreject, h.undumped, if_neg (by simp)]
            exact hout.cons fun _ => hhandler
        · exact absurd rfl hne
      · exact hnext h hn hstate
    obtain ⟨hn, hs⟩ | ⟨q', hn, hstate⟩ := h.decode_state byte
    · obtain ⟨rfl, -⟩ | ⟨hne, htrunc⟩ := h.pending.truncated (t := rest) hn
      · have hq : q = [] := by cases h.pending; rfl
        subst hq
        exact hstart h
      · by_cases hhandler : handler = .strict
        · subst hhandler
          obtain ⟨cs, hcs⟩ := Utf8.exists_repaired (byte :: rest)
          refine ⟨none :: cs, .piece htrunc hcs, ?_⟩
          rw [escapeFrom_strict hs]
          exact .strict
        · obtain ⟨st', hreject, h'⟩ := reject_spec (i := i) h hhandler
          obtain ⟨cs, hcs, hout⟩ := hstart h'
          refine ⟨none :: cs, .piece htrunc hcs, ?_⟩
          rw [escapeFrom_reject hs hreject, h.undumped, if_pos (List.length_pos_iff.mpr hne)]
          exact hout.cons fun _ => hhandler
    · exact hnext h hn hstate

theorem dumpEscaped_outcome (handler : ErrorHandler) (ensureAscii : Bool) (s : Bytes) :
    ∃ cs, Utf8.Repaired s cs ∧
      Outcome handler ensureAscii [] cs (dumpEscaped handler ensureAscii s) := by
  have hstart : Reading ensureAscii {} [] [] [] := by
    refine ⟨.start, rfl, by simp, rfl, by simp, [], rfl, ?_, rfl⟩
    cases ensureAscii <;> rfl
  exact escapeFrom_spec s hstart

theorem dumpEscaped_writes {handler : ErrorHandler} {ensureAscii : Bool} {s out : Bytes}
    (h : dumpEscaped handler ensureAscii s = .ok out) :
    ∃ cs, Utf8.Repaired s cs ∧ escapeAll handler ensureAscii cs = out := by
  obtain ⟨cs, hcs, hout⟩ := dumpEscaped_outcome handler ensureAscii s
  have hok : handler = .strict → none ∉ cs := by
    intro hstrict hmem
    obtain ⟨message, hthrow⟩ := hout.throws hstrict hmem
    cases hthrow.symm.trans h
  refine ⟨cs, hcs, ?_⟩
  simpa using (hout.writes hok).symm.trans h

/-- The string is written as its repair, with every escape in place: the buffer neither
overflows nor loses a byte. Only the strict handler throws, and only on a piece that is
no character. -/
theorem dumpEscaped_eq (handler : ErrorHandler) (ensureAscii : Bool) (s : Bytes) :
    ∃ cs, Utf8.Repaired s cs ∧
      if handler = .strict ∧ none ∈ cs then
        ∃ message, dumpEscaped handler ensureAscii s = .error (.typeError message)
      else dumpEscaped handler ensureAscii s = .ok (escapeAll handler ensureAscii cs) := by
  obtain ⟨cs, hcs, hout⟩ := dumpEscaped_outcome handler ensureAscii s
  refine ⟨cs, hcs, ?_⟩
  split_ifs with hthrow
  · exact hout.throws hthrow.1 hthrow.2
  · exact hout.writes fun hstrict hmem => hthrow ⟨hstrict, hmem⟩

/-! ### The lexer reads it back -/

theorem hexDigit_text {n : ℕ} (h : n < 16) : Lexer.hexDigit (hexDigit n) = some n := by
  have hall : ∀ n : Fin 16, Lexer.hexDigit (hexDigit n) = some n.val := by decide
  exact hall ⟨n, h⟩

theorem unicodeEscape_text {n : ℕ} (h : n < 0x10000) :
    ∃ ds, Lexer.HexText ds n ∧ unicodeEscape n = 0x5C :: 0x75 :: ds := by
  refine ⟨_, ?_, rfl⟩
  convert Lexer.HexText.intro (hexDigit_text (Nat.mod_lt (n / 0x1000) (by decide : 0 < 16)))
    (hexDigit_text (Nat.mod_lt (n / 0x100) (by decide : 0 < 16)))
    (hexDigit_text (Nat.mod_lt (n / 0x10) (by decide : 0 < 16)))
    (hexDigit_text (Nat.mod_lt n (by decide : 0 < 16))) using 1
  omega

theorem shortEscape_text {n : ℕ} {b : UInt8} (h : shortEscape n = some b) :
    ∃ r, Lexer.escaped b = some r ∧ n = r.toNat := by
  simp only [shortEscape] at h
  split_ifs at h with h1 h2 h3 h4 h5 h6 h7 <;> obtain rfl := Option.some.inj h
  · exact ⟨0x08, rfl, h1⟩
  · exact ⟨0x09, rfl, h2⟩
  · exact ⟨0x0A, rfl, h3⟩
  · exact ⟨0x0C, rfl, h4⟩
  · exact ⟨0x0D, rfl, h5⟩
  · exact ⟨0x22, rfl, h6⟩
  · exact ⟨0x5C, rfl, h7⟩

theorem escapeChar_text (ensureAscii : Bool) (c : Char) :
    Lexer.CharText (escapeChar ensureAscii c) c := by
  have hc : c.toNat < 0xD800 ∨ 0xDFFF < c.toNat ∧ c.toNat < 0x110000 := c.valid
  unfold escapeChar
  split
  · rename_i b hb
    obtain ⟨r, hr, hcr⟩ := shortEscape_text hb
    exact .short hr hcr
  · rename_i hshort
    have hquote : c.toNat ≠ 0x22 := by
      intro h
      rw [h] at hshort
      cases hshort
    have hbackslash : c.toNat ≠ 0x5C := by
      intro h
      rw [h] at hshort
      cases hshort
    split_ifs with hesc hsize
    · obtain ⟨ds, hds, heq⟩ := unicodeEscape_text (n := c.toNat) (by omega)
      rw [heq]
      exact .unicode hds
    · have hand : c.toNat &&& 0x3FF = c.toNat % 0x400 := Nat.and_two_pow_sub_one_eq_mod _ 10
      have hshift : c.toNat >>> 10 = c.toNat / 0x400 := Nat.shiftRight_eq_div_pow _ 10
      obtain ⟨ds, hds, heq⟩ := unicodeEscape_text (n := 0xD7C0 + c.toNat >>> 10) (by omega)
      obtain ⟨es, hes, heq'⟩ := unicodeEscape_text (n := 0xDC00 + (c.toNat &&& 0x3FF)) (by omega)
      rw [heq, heq']
      exact .pair hds hes (by omega) (by omega) (by omega)
    · exact .plain (by omega) hquote hbackslash

theorem replacement_text (ensureAscii : Bool) :
    Lexer.CharText (replacement ensureAscii) '\uFFFD' := by
  cases ensureAscii with
  | true => exact .unicode (.intro (a := 0x66) (b := 0x66) (c := 0x66) (d := 0x64) rfl rfl rfl rfl)
  | false =>
    show Lexer.CharText (String.utf8EncodeChar '\uFFFD') '\uFFFD'
    exact .plain (by decide) (by decide) (by decide)

/-- What a reader of the output takes a character, or a piece that is none, for. -/
def readOne (handler : ErrorHandler) : Option Char → List Char
  | some c => [c]
  | none => if handler = .replace then ['\uFFFD'] else []

def readBack (handler : ErrorHandler) (cs : List (Option Char)) : List Char :=
  cs.flatMap (readOne handler)

theorem escapeAll_text (handler : ErrorHandler) (ensureAscii : Bool) (cs : List (Option Char)) :
    Lexer.StringText (escapeAll handler ensureAscii cs) (readBack handler cs) := by
  induction cs with
  | nil => exact .nil
  | cons x cs ih =>
    rw [escapeAll, readBack, List.flatMap_cons, List.flatMap_cons]
    cases x with
    | some c => exact .cons (escapeChar_text ensureAscii c) ih
    | none =>
      simp only [escapeOne, readOne]
      split_ifs with hreplace
      · exact .cons (replacement_text ensureAscii) ih
      · exact ih

/-- The strict handler lets through what is UTF-8, and nothing else. -/
theorem dumpEscaped_strict (ensureAscii : Bool) (s : Bytes) :
    (∃ cs out, s = Utf8.encode cs ∧ dumpEscaped .strict ensureAscii s = .ok out ∧
        Lexer.StringText out cs) ∨
      ¬ Utf8.Valid s ∧
        ∃ message, dumpEscaped .strict ensureAscii s = .error (.typeError message) := by
  obtain ⟨ds, hds, hout⟩ := dumpEscaped_outcome .strict ensureAscii s
  by_cases hmem : none ∈ ds
  · refine .inr ⟨?_, hout.throws rfl hmem⟩
    rintro hvalid
    obtain ⟨cs, rfl⟩ := Utf8.valid_iff.mp hvalid
    obtain rfl := hds.unique (Utf8.repaired_encode cs)
    simp at hmem
  · obtain ⟨cs, rfl, rfl⟩ := (Utf8.repaired_valid hds).mp hmem
    refine .inl ⟨cs, _, rfl, hout.writes fun _ => hmem, ?_⟩
    have hread : readBack .strict (cs.map some) = cs := by
      simp [readBack, List.flatMap_map, readOne]
    simpa [hread] using escapeAll_text .strict ensureAscii (cs.map some)

/-- Behind every handler stands text that the lexer takes for a string again: the one that
was dumped, with what was no character replaced or left out. -/
theorem scanString_dumpEscaped (handler : ErrorHandler) (ensureAscii : Bool) (s out rest : Bytes)
    (h : dumpEscaped handler ensureAscii s = .ok out) :
    ∃ cs, Utf8.Repaired s cs ∧ Lexer.scanString (out ++ 0x22 :: rest) =
      .ok (Utf8.encode (readBack handler cs), rest) := by
  obtain ⟨cs, hcs, rfl⟩ := dumpEscaped_writes h
  refine ⟨cs, hcs, ?_⟩
  exact Lexer.scanString_text (escapeAll_text handler ensureAscii cs)

theorem scanString_dumpEscaped_replaced : ∃ cs, Utf8.Repaired [0x61, 0xFF, 0x22] cs ∧
    Lexer.scanString (Utf8.encode "a\\ufffd\\\"\",".toList) =
      .ok (Utf8.encode (readBack .replace cs), [0x2C]) :=
  scanString_dumpEscaped .replace true [0x61, 0xFF, 0x22] (Utf8.encode "a\\ufffd\\\"".toList) [0x2C]
    (by decide +kernel)

end Serializer
end WebrtcNativeDemo
