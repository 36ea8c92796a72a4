import Mathlib.Data.Nat.Digits.Lemmas
import WebrtcNativeDemo.BasicJson

/-!
# The lexer

`lexer` of `nlohmann/json.hpp` on the bytes of a `std::string`, without comments, in
the "C" locale. A scan function takes what has not been read; `unget` leaves the byte
there. On an error it gives the `error_message`, and the lexer is not used again.
-/

namespace WebrtcNativeDemo

/-- `token_type`, with the value that the lexer keeps for the token. -/
inductive Token (F : Type) where
  | literalTrue
  | literalFalse
  | literalNull
  | valueString (s : Bytes)
  | valueUnsigned (u : UInt64)
  | valueInteger (i : Int64)
  | valueFloat (x : F)
  | beginArray
  | beginObject
  | endArray
  | endObject
  | nameSeparator
  | valueSeparator
  | parseError (message : String)
  | endOfInput

namespace Lexer

/-! ### Strings -/

def hexDigit (b : UInt8) : Option ℕ :=
  if 0x30 ≤ b ∧ b ≤ 0x39 then some (b.toNat - 0x30)
  else if 0x41 ≤ b ∧ b ≤ 0x46 then some (b.toNat - 0x37)
  else if 0x61 ≤ b ∧ b ≤ 0x66 then some (b.toNat - 0x57)
  else none

def getCodepointFrom : List ℕ → ℕ → Bytes → Option (ℕ × Bytes)
  | [], codepoint, input => some (codepoint, input)
  | _ :: _, _, [] => none
  | factor :: factors, codepoint, current :: input =>
    (hexDigit current).bind fun d => getCodepointFrom factors (codepoint + d <<< factor) input

def getCodepoint (input : Bytes) : Option (ℕ × Bytes) := getCodepointFrom [12, 8, 4, 0] 0 input

def addCodepoint (codepoint : ℕ) : Bytes :=
  if codepoint < 0x80 then [UInt8.ofNat codepoint]
  else if codepoint ≤ 0x7FF then
    [UInt8.ofNat (0xC0 ||| (codepoint >>> 6)), UInt8.ofNat (0x80 ||| (codepoint &&& 0x3F))]
  else if codepoint ≤ 0xFFFF then
    [UInt8.ofNat (0xE0 ||| (codepoint >>> 12)), UInt8.ofNat (0x80 ||| ((codepoint >>> 6) &&& 0x3F)),
      UInt8.ofNat (0x80 ||| (codepoint &&& 0x3F))]
  else
    [UInt8.ofNat (0xF0 ||| (codepoint >>> 18)),
      UInt8.ofNat (0x80 ||| ((codepoint >>> 12) &&& 0x3F)),
      UInt8.ofNat (0x80 ||| ((codepoint >>> 6) &&& 0x3F)),
      UInt8.ofNat (0x80 ||| (codepoint &&& 0x3F))]

def fourHexDigits : String := "invalid string: '\\u' must be followed by 4 hex digits"

def lowMustFollow : String :=
  "invalid string: surrogate U+D800..U+DBFF must be followed by U+DC00..U+DFFF"

def highMustPrecede : String :=
  "invalid string: surrogate U+DC00..U+DFFF must follow U+D800..U+DBFF"

/-- The second half of a surrogate pair. -/
def scanLowSurrogate (codepoint1 : ℕ) : Bytes → Except String (Bytes × Bytes)
  | 0x5C :: 0x75 :: input =>
    match getCodepoint input with
    | none => .error fourHexDigits
    | some (codepoint2, input) =>
      if 0xDC00 ≤ codepoint2 ∧ codepoint2 ≤ 0xDFFF then
        .ok (addCodepoint ((codepoint1 <<< 10) + codepoint2 - 0x35FDC00), input)
      else .error lowMustFollow
  | _ => .error lowMustFollow

/-- Behind `\u`: the bytes added to the buffer. -/
def scanUnicode (input : Bytes) : Except String (Bytes × Bytes) :=
  match getCodepoint input with
  | none => .error fourHexDigits
  | some (codepoint1, input) =>
    if 0xD800 ≤ codepoint1 ∧ codepoint1 ≤ 0xDBFF then scanLowSurrogate codepoint1 input
    else if 0xDC00 ≤ codepoint1 ∧ codepoint1 ≤ 0xDFFF then .error highMustPrecede
    else .ok (addCodepoint codepoint1, input)

/-- The byte that the short escape `\b` stands for. -/
def escaped (b : UInt8) : Option UInt8 :=
  if b = 0x22 ∨ b = 0x5C ∨ b = 0x2F then some b
  else if b = 0x62 then some 0x08
  else if b = 0x66 then some 0x0C
  else if b = 0x6E then some 0x0A
  else if b = 0x72 then some 0x0D
  else if b = 0x74 then some 0x09
  else none

/-- Behind a backslash. -/
def scanEscape : Bytes → Except String (Bytes × Bytes)
  | [] => .error "invalid string: forbidden character after backslash"
  | current :: input =>
    match escaped current with
    | some b => .ok ([b], input)
    | none =>
      if current = 0x75 then scanUnicode input
      else .error "invalid string: forbidden character after backslash"

def nextByteInRange : List Utf8.Range → Bytes → Except String (Bytes × Bytes)
  | [], input => .ok ([], input)
  | _ :: _, [] => .error "invalid string: ill-formed UTF-8 byte"
  | range :: ranges, current :: input =>
    if range.Has current then
      (nextByteInRange ranges input).map fun (added, input) => (current :: added, input)
    else .error "invalid string: ill-formed UTF-8 byte"

/-- The ranges for `next_byte_in_range`, for the bytes that may begin a character. -/
def byteRanges (b : UInt8) : Option (List Utf8.Range) :=
  if 0x20 ≤ b ∧ b ≤ 0x7F then some []
  else if 0xC2 ≤ b ∧ b ≤ 0xDF then some [⟨0x80, 0xBF⟩]
  else if b = 0xE0 then some [⟨0xA0, 0xBF⟩, ⟨0x80, 0xBF⟩]
  else if 0xE1 ≤ b ∧ b ≤ 0xEC ∨ b = 0xEE ∨ b = 0xEF then some [⟨0x80, 0xBF⟩, ⟨0x80, 0xBF⟩]
  else if b = 0xED then some [⟨0x80, 0x9F⟩, ⟨0x80, 0xBF⟩]
  else if b = 0xF0 then some [⟨0x90, 0xBF⟩, ⟨0x80, 0xBF⟩, ⟨0x80, 0xBF⟩]
  else if 0xF1 ≤ b ∧ b ≤ 0xF3 then some [⟨0x80, 0xBF⟩, ⟨0x80, 0xBF⟩, ⟨0x80, 0xBF⟩]
  else if b = 0xF4 then some [⟨0x80, 0x8F⟩, ⟨0x80, 0xBF⟩, ⟨0x80, 0xBF⟩]
  else none

def controlNames : List String :=
  ["NUL", "SOH", "STX", "ETX", "EOT", "ENQ", "ACK", "BEL", "BS", "HT", "LF", "VT", "FF", "CR", "SO",
    "SI", "DLE", "DC1", "DC2", "DC3", "DC4", "NAK", "SYN", "ETB", "CAN", "EM", "SUB", "ESC", "FS",
    "GS", "RS", "US"]

def hexCode (b : UInt8) : String :=
  let digits := [Nat.digitChar (b.toNat / 16), Nat.digitChar (b.toNat % 16)]
  "00" ++ String.ofList (digits.map Char.toUpper)

/-- The short escape that the message for a control character names. -/
def orShort (b : UInt8) : String :=
  if b = 0x08 then " or \\b" else if b = 0x09 then " or \\t" else if b = 0x0A then " or \\n"
  else if b = 0x0C then " or \\f" else if b = 0x0D then " or \\r" else ""

def controlMessage (b : UInt8) : String :=
  "invalid string: control character U+" ++ hexCode b ++ " (" ++ controlNames.getD b.toNat "" ++
    ") must be escaped to \\u" ++ hexCode b ++ orShort b

/-- One turn of the loop in `scan_string`: the bytes added to the buffer, or `none` at
the closing quote. -/
def scanChar : Bytes → Except String (Option Bytes × Bytes)
  | [] => .error "invalid string: missing closing quote"
  | current :: input =>
    if current = 0x22 then .ok (none, input)
    else if current = 0x5C then (scanEscape input).map fun (added, input) => (some added, input)
    else if current ≤ 0x1F then .error (controlMessage current)
    else
      match byteRanges current with
      | none => .error "invalid string: ill-formed UTF-8 byte"
      | some ranges =>
        (nextByteInRange ranges input).map fun (added, input) => (some (current :: added), input)

/-- The loop, which reads a byte in every turn: the length of the input bounds it. -/
def scanStringFrom : ℕ → Bytes → Bytes → Except String (Bytes × Bytes)
  | 0, _, _ => .error "invalid string: missing closing quote"
  | turns + 1, tokenBuffer, input =>
    match scanChar input with
    | .error message => .error message
    | .ok (none, input) => .ok (tokenBuffer, input)
    | .ok (some added, input) => scanStringFrom turns (tokenBuffer ++ added) input

/-- Behind the opening quote. -/
def scanString (input : Bytes) : Except String (Bytes × Bytes) :=
  scanStringFrom (input.length + 1) [] input

/-! ### Numbers -/

inductive NumberState
  | minus
  | zero
  | any1
  | decimal1
  | decimal2
  | exponent
  | sign
  | any2
deriving DecidableEq, Repr

inductive NumberType
  | unsigned
  | integer
  | float
deriving DecidableEq, Repr

/-- The columns of the table of `scan_number`. -/
inductive CharClass
  | zero
  | oneToNine
  | e
  | plus
  | minus
  | dot
  | anything
deriving DecidableEq, Repr

def charClass (b : UInt8) : CharClass :=
  if b = 0x30 then .zero
  else if 0x31 ≤ b ∧ b ≤ 0x39 then .oneToNine
  else if b = 0x65 ∨ b = 0x45 then .e
  else if b = 0x2B then .plus
  else if b = 0x2D then .minus
  else if b = 0x2E then .dot
  else .anything

inductive Goto
  | state (s : NumberState)
  | done
  | error (message : String)
deriving DecidableEq, Repr

def NumberState.goto : NumberState → CharClass → Goto
  | .minus, .zero => .state .zero
  | .minus, .oneToNine => .state .any1
  | .minus, _ => .error "invalid number; expected digit after '-'"
  | .zero, .dot => .state .decimal1
  | .zero, .e => .state .exponent
  | .zero, _ => .done
  | .any1, .zero | .any1, .oneToNine => .state .any1
  | .any1, .dot => .state .decimal1
  | .any1, .e => .state .exponent
  | .any1, _ => .done
  | .decimal1, .zero | .decimal1, .oneToNine => .state .decimal2
  | .decimal1, _ => .error "invalid number; expected digit after '.'"
  | .decimal2, .zero | .decimal2, .oneToNine => .state .decimal2
  | .decimal2, .e => .state .exponent
  | .decimal2, _ => .done
  | .exponent, .plus | .exponent, .minus => .state .sign
  | .exponent, .zero | .exponent, .oneToNine => .state .any2
  | .exponent, _ => .error "invalid number; expected '+', '-', or digit after exponent"
  | .sign, .zero | .sign, .oneToNine => .state .any2
  | .sign, _ => .error "invalid number; expected digit after exponent sign"
  | .any2, .zero | .any2, .oneToNine => .state .any2
  | .any2, _ => .done

/-- `number_type` behind the label of a state. -/
def NumberState.numberType (s : NumberState) (numberType : NumberType) : NumberType :=
  match s with
  | .minus => .integer
  | .decimal1 | .exponent => .float
  | _ => numberType

/-- From a state that was just entered: the type, the buffer and the rest. -/
def scanNumberFrom : NumberState → NumberType → Bytes → Bytes →
    Except String (NumberType × Bytes × Bytes)
  | s, numberType, tokenBuffer, [] =>
    match s.goto .anything with
    | .error message => .error message
    | _ => .ok (s.numberType numberType, tokenBuffer, [])
  | s, numberType, tokenBuffer, current :: input =>
    match s.goto (charClass current) with
    | .error message => .error message
    | .done => .ok (s.numberType numberType, tokenBuffer, current :: input)
    | .state s' => scanNumberFrom s' (s.numberType numberType) (tokenBuffer ++ [current]) input

def digitsValue (digits : Bytes) : ℕ := digits.foldl (fun n d => n * 10 + (d.toNat - 0x30)) 0

/-- `std::strtoull` on digits, `none` for `ERANGE`. -/
def strtoull (s : Bytes) : Option UInt64 :=
  if digitsValue s < 2 ^ 64 then some (UInt64.ofNat (digitsValue s)) else none

/-- `std::strtoll` on a minus sign and digits, `none` for `ERANGE`. -/
def strtoll (s : Bytes) : Option Int64 :=
  if digitsValue s.tail ≤ 2 ^ 63 then some (Int64.ofInt (-(digitsValue s.tail : ℤ))) else none

variable {F : Type} (lib : FloatLib F)

def convert (tokenBuffer : Bytes) : NumberType → Token F
  | .unsigned =>
    match strtoull tokenBuffer with
    | some u => .valueUnsigned u
    | none => .valueFloat (lib.strtod tokenBuffer)
  | .integer =>
    match strtoll tokenBuffer with
    | some i => .valueInteger i
    | none => .valueFloat (lib.strtod tokenBuffer)
  | .float => .valueFloat (lib.strtod tokenBuffer)

def scanNumber (current : UInt8) (input : Bytes) : Except String (Token F × Bytes) :=
  let init : NumberState :=
    if current = 0x2D then .minus else if current = 0x30 then .zero else .any1
  (scanNumberFrom init .unsigned [current] input).map fun (numberType, tokenBuffer, input) =>
    (convert lib tokenBuffer numberType, input)

/-! ### Tokens -/

/-- The rest of a literal whose first character was read. -/
def scanLiteral (token : Token F) : Bytes → Bytes → Except String (Token F × Bytes)
  | [], input => .ok (token, input)
  | _ :: _, [] => .error "invalid literal"
  | c :: text, current :: input =>
    if current = c then scanLiteral token text input else .error "invalid literal"

def isWhitespace (b : UInt8) : Bool := b = 0x20 || b = 0x09 || b = 0x0A || b = 0x0D

def skipWhitespace (input : Bytes) : Bytes := input.dropWhile isWhitespace

/-- `none` if the input begins with `EF` and not with the whole mark. -/
def skipBom : Bytes → Option Bytes
  | 0xEF :: 0xBB :: 0xBF :: input => some input
  | 0xEF :: _ => none
  | input => some input

/-- `scan` behind the byte order mark. The null byte ends the input. -/
def scan (input : Bytes) : Except String (Token F × Bytes) :=
  match skipWhitespace input with
  | [] => .ok (.endOfInput, [])
  | current :: input =>
    if current = 0x5B then .ok (.beginArray, input)
    else if current = 0x5D then .ok (.endArray, input)
    else if current = 0x7B then .ok (.beginObject, input)
    else if current = 0x7D then .ok (.endObject, input)
    else if current = 0x3A then .ok (.nameSeparator, input)
    else if current = 0x2C then .ok (.valueSeparator, input)
    else if current = 0x74 then scanLiteral .literalTrue [0x72, 0x75, 0x65] input
    else if current = 0x66 then scanLiteral .literalFalse [0x61, 0x6C, 0x73, 0x65] input
    else if current = 0x6E then scanLiteral .literalNull [0x75, 0x6C, 0x6C] input
    else if current = 0x22 then
      (scanString input).map fun (s, input) => (.valueString s, input)
    else if current = 0x2D ∨ 0x30 ≤ current ∧ current ≤ 0x39 then scanNumber lib current input
    else if current = 0 then .ok (.endOfInput, input)
    else .error "invalid literal"

end Lexer
end WebrtcNativeDemo
