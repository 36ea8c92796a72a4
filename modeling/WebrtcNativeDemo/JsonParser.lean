import WebrtcNativeDemo.JsonTokens

/-!
# The parser

`parser` of `nlohmann/json.hpp` with `json_sax_dom_parser` behind it: a loop over a
stack of states, no recursion. Every turn of the loop reads a token or finishes a value,
which bounds it by the length of the text.
-/

namespace WebrtcNativeDemo

/-- The exceptions of the parser: 101, without the position and the text that was read
last, and 406. -/
inductive ParseFailure
  | parseError (message : String)
  | outOfRange
deriving DecidableEq, Repr

/-- An array or object on `ref_stack`. What is open is put into its parent when it is
closed; until then nothing reads the parent. -/
inductive Frame (F : Type) where
  | array (elements : List (BasicJson F))
  | object (members : List (Bytes × BasicJson F)) (key : Bytes)

/-- `states` and `ref_stack` begin with their `back()`. -/
structure JsonParser (F : Type) where
  input : Bytes
  lastToken : Token F
  states : List Bool := []
  refStack : List (Frame F) := []
  root : BasicJson F := .null

namespace Token

variable {F : Type}

def typeName : Token F → String
  | literalTrue => "true literal"
  | literalFalse => "false literal"
  | literalNull => "null literal"
  | valueString _ => "string literal"
  | valueUnsigned _ | valueInteger _ | valueFloat _ => "number literal"
  | beginArray => "'['"
  | beginObject => "'\x7b'"
  | endArray => "']'"
  | endObject => "'\x7d'"
  | nameSeparator => "':'"
  | valueSeparator => "','"
  | parseError _ => "<parse error>"
  | endOfInput => "end of input"

/-- `exception_message`; `none` is the type that suppresses what is expected. -/
def exceptionMessage (lastToken : Token F) (expected : Option String) (context : String) :
    String :=
  let found :=
    match lastToken with
    | parseError message => message
    | _ => "unexpected " ++ lastToken.typeName
  let expectation :=
    match expected with
    | some name => "; expected " ++ name
    | none => ""
  "syntax error while parsing " ++ context ++ " - " ++ found ++ expectation

/-- The value of a token that is one. -/
def scalar (lib : FloatLib F) : Token F → Option (BasicJson F)
  | literalTrue => some (.boolean true)
  | literalFalse => some (.boolean false)
  | literalNull => some .null
  | valueString s => some (.string s)
  | valueUnsigned u => some (.numberUnsigned u)
  | valueInteger i => some (.numberInteger i)
  | valueFloat x => if lib.isFinite x then some (.numberFloat x) else none
  | _ => none

/-- Behind these nothing is read. -/
def isStop : Token F → Bool
  | parseError _ | endOfInput => true
  | _ => false

end Token

namespace Frame

variable {F : Type}

def value : Frame F → BasicJson F
  | array elements => .array elements
  | object members _ => .object members

end Frame

namespace JsonParser

variable {F : Type}

/-! ### The events -/

def handleValue (p : JsonParser F) (v : BasicJson F) : JsonParser F :=
  match p.refStack with
  | [] => { p with root := v }
  | .array elements :: frames => { p with refStack := .array (elements ++ [v]) :: frames }
  | .object members key :: frames =>
    { p with refStack := .object (OrderedMap.insert key v members) key :: frames }

def startArray (p : JsonParser F) : JsonParser F := { p with refStack := .array [] :: p.refStack }

def startObject (p : JsonParser F) : JsonParser F :=
  { p with refStack := .object [] [] :: p.refStack }

/-- The null that is added under a new key is overwritten by the value, which comes next. -/
def key (p : JsonParser F) (k : Bytes) : JsonParser F :=
  match p.refStack with
  | .object members _ :: frames => { p with refStack := .object members k :: frames }
  | _ => p

def endContainer (p : JsonParser F) : JsonParser F :=
  match p.refStack with
  | [] => p
  | frame :: frames => handleValue { p with refStack := frames } frame.value

def endArray (p : JsonParser F) : JsonParser F := p.endContainer

def endObject (p : JsonParser F) : JsonParser F := p.endContainer

/-! ### The loop -/

variable (lib : FloatLib F)

def getToken (p : JsonParser F) : JsonParser F :=
  match Lexer.scan lib p.input with
  | .ok (token, input) => { p with lastToken := token, input := input }
  | .error message => { p with lastToken := .parseError message }

/-- The constructor, which reads the first token. -/
def init (input : Bytes) : JsonParser F :=
  match Lexer.skipBom input with
  | some input => getToken lib { input := input, lastToken := .endOfInput }
  | none =>
    { input := input, lastToken := .parseError "invalid BOM; must be 0xEF 0xBB 0xBF if given" }

def unexpected {α : Type} (p : JsonParser F) (expected : Option String) (context : String) :
    Except ParseFailure α :=
  .error (.parseError (p.lastToken.exceptionMessage expected context))

/-- Where the loop stands: before a value, behind one, or at its `return true`. -/
inductive Turn (F : Type) where
  | value (p : JsonParser F)
  | evaluate (p : JsonParser F)
  | done (p : JsonParser F)

/-- A key and the colon behind it. -/
def parseKey (p : JsonParser F) : Except ParseFailure (JsonParser F) :=
  match p.lastToken with
  | .valueString s =>
    let p := (p.key s).getToken lib
    match p.lastToken with
    | .nameSeparator => .ok p
    | _ => p.unexpected (some "':'") "object separator"
  | _ => p.unexpected (some "string literal") "object key"

def parseValue (p : JsonParser F) : Except ParseFailure (Turn F) :=
  match p.lastToken with
  | .beginObject =>
    let p := p.startObject.getToken lib
    match p.lastToken with
    | .endObject => .ok (.evaluate p.endObject)
    | _ => (parseKey lib p).map fun p =>
        .value (getToken lib { p with states := false :: p.states })
  | .beginArray =>
    let p := p.startArray.getToken lib
    match p.lastToken with
    | .endArray => .ok (.evaluate p.endArray)
    | _ => .ok (.value { p with states := true :: p.states })
  | .valueFloat x =>
    if lib.isFinite x then .ok (.evaluate (p.handleValue (.numberFloat x)))
    else .error .outOfRange
  | .literalFalse => .ok (.evaluate (p.handleValue (.boolean false)))
  | .literalNull => .ok (.evaluate (p.handleValue .null))
  | .literalTrue => .ok (.evaluate (p.handleValue (.boolean true)))
  | .valueInteger i => .ok (.evaluate (p.handleValue (.numberInteger i)))
  | .valueString s => .ok (.evaluate (p.handleValue (.string s)))
  | .valueUnsigned u => .ok (.evaluate (p.handleValue (.numberUnsigned u)))
  | .parseError _ => p.unexpected none "value"
  | _ => p.unexpected (some "'[', '\x7b', or a literal") "value"

def evaluateState (p : JsonParser F) : Except ParseFailure (Turn F) :=
  match p.states with
  | [] => .ok (.done p)
  | true :: states =>
    let p := p.getToken lib
    match p.lastToken with
    | .valueSeparator => .ok (.value (p.getToken lib))
    | .endArray => .ok (.evaluate { p.endArray with states := states })
    | _ => p.unexpected (some "']'") "array"
  | false :: states =>
    let p := p.getToken lib
    match p.lastToken with
    | .valueSeparator => (parseKey lib (p.getToken lib)).map fun p => .value (p.getToken lib)
    | .endObject => .ok (.evaluate { p.endObject with states := states })
    | _ => p.unexpected (some "'\x7d'") "object"

variable {lib}

@[simp] theorem handleValue_input (p : JsonParser F) (v : BasicJson F) :
    (p.handleValue v).input = p.input := by
  unfold handleValue
  split <;> rfl

@[simp] theorem endContainer_input (p : JsonParser F) : p.endContainer.input = p.input := by
  unfold endContainer
  split <;> simp

@[simp] theorem key_input (p : JsonParser F) (k : Bytes) : (p.key k).input = p.input := by
  unfold key
  split <;> rfl

/-! ### What a turn does -/

theorem parseKey_eq_ok {p p' : JsonParser F} :
    p.parseKey lib = .ok p' ↔ ∃ s, p.lastToken = .valueString s ∧
      p' = (p.key s).getToken lib ∧ p'.lastToken = .nameSeparator := by
  unfold parseKey
  split
  · rename_i s hs
    simp only [hs, Token.valueString.injEq]
    split
    · rename_i hsep
      simp only [Except.ok.injEq]
      constructor
      · rintro rfl
        exact ⟨s, rfl, rfl, hsep⟩
      · rintro ⟨s', rfl, rfl, -⟩
        rfl
    · rename_i hno
      simp only [unexpected, reduceCtorEq, false_iff]
      rintro ⟨s', rfl, rfl, hsep⟩
      exact hno hsep
  · rename_i hno
    simp only [unexpected, reduceCtorEq, false_iff]
    rintro ⟨s, hs, -⟩
    exact hno s hs

variable (lib) in
inductive ValueTurn (p : JsonParser F) : Turn F → Prop
  | emptyObject (h : p.lastToken = .beginObject)
      (hend : (p.startObject.getToken lib).lastToken = .endObject) :
      ValueTurn p (.evaluate (p.startObject.getToken lib).endObject)
  | object {p' : JsonParser F} (h : p.lastToken = .beginObject)
      (hkey : (p.startObject.getToken lib).parseKey lib = .ok p') :
      ValueTurn p (.value (getToken lib { p' with states := false :: p'.states }))
  | emptyArray (h : p.lastToken = .beginArray)
      (hend : (p.startArray.getToken lib).lastToken = .endArray) :
      ValueTurn p (.evaluate (p.startArray.getToken lib).endArray)
  | array (h : p.lastToken = .beginArray)
      (hend : (p.startArray.getToken lib).lastToken ≠ .endArray) :
      ValueTurn p (.value { p.startArray.getToken lib with states := true :: p.states })
  | scalar {v : BasicJson F} (h : p.lastToken.scalar lib = some v) :
      ValueTurn p (.evaluate (p.handleValue v))

variable (lib) in
inductive EvaluateTurn (p : JsonParser F) : Turn F → Prop
  | done (h : p.states = []) : EvaluateTurn p (.done p)
  | nextElement {states : List Bool} (h : p.states = true :: states)
      (hsep : (p.getToken lib).lastToken = .valueSeparator) :
      EvaluateTurn p (.value ((p.getToken lib).getToken lib))
  | endArray {states : List Bool} (h : p.states = true :: states)
      (hend : (p.getToken lib).lastToken = .endArray) :
      EvaluateTurn p (.evaluate { (p.getToken lib).endArray with states := states })
  | nextMember {states : List Bool} {p' : JsonParser F} (h : p.states = false :: states)
      (hsep : (p.getToken lib).lastToken = .valueSeparator)
      (hkey : ((p.getToken lib).getToken lib).parseKey lib = .ok p') :
      EvaluateTurn p (.value (p'.getToken lib))
  | endObject {states : List Bool} (h : p.states = false :: states)
      (hend : (p.getToken lib).lastToken = .endObject) :
      EvaluateTurn p (.evaluate { (p.getToken lib).endObject with states := states })

theorem getToken_states (p : JsonParser F) : (p.getToken lib).states = p.states := by
  unfold getToken
  split <;> rfl

theorem key_states (p : JsonParser F) (k : Bytes) : (p.key k).states = p.states := by
  unfold key
  split <;> rfl

theorem parseValue_sound {p : JsonParser F} {t : Turn F} (h : p.parseValue lib = .ok t) :
    ValueTurn lib p t := by
  unfold parseValue at h
  split at h
  case h_1 hlast =>
    simp only at h
    split at h
    · rename_i hend
      cases h
      exact .emptyObject hlast hend
    · obtain ⟨p', hkey, rfl⟩ := Lexer.map_eq_ok.mp h
      exact .object hlast hkey
  case h_2 hlast =>
    simp only at h
    split at h
    · rename_i hend
      cases h
      exact .emptyArray hlast hend
    · rename_i hend
      cases h
      rw [getToken_states]
      exact .array hlast hend
  case h_3 x hlast =>
    split_ifs at h with hfinite
    cases h
    exact .scalar (by simp [hlast, Token.scalar, hfinite])
  all_goals
    rename_i hlast
    first
    | cases h
      exact .scalar (by simp [hlast, Token.scalar])
    | cases h

theorem evaluateState_sound {p : JsonParser F} {t : Turn F} (h : p.evaluateState lib = .ok t) :
    EvaluateTurn lib p t := by
  unfold evaluateState at h
  split at h
  case h_1 hstates =>
    cases h
    exact .done hstates
  case h_2 hstates =>
    simp only at h
    split at h
    · rename_i hsep
      cases h
      exact .nextElement hstates hsep
    · rename_i hend
      cases h
      exact .endArray hstates hend
    · cases h
  case h_3 hstates =>
    simp only at h
    split at h
    · rename_i hsep
      obtain ⟨p', hkey, rfl⟩ := Lexer.map_eq_ok.mp h
      exact .nextMember hstates hsep hkey
    · rename_i hend
      cases h
      exact .endObject hstates hend
    · cases h

theorem parseValue_complete {p : JsonParser F} {t : Turn F} (h : ValueTurn lib p t) :
    p.parseValue lib = .ok t := by
  cases h with
  | emptyObject hlast hend => simp only [parseValue, hlast, hend]
  | object hlast hkey =>
    obtain ⟨s, hs, -, -⟩ := parseKey_eq_ok.mp hkey
    simp only [parseValue, hlast, hs, hkey]
    rfl
  | emptyArray hlast hend => simp only [parseValue, hlast, hend]
  | array hlast hend =>
    simp only [parseValue, hlast, getToken_states]
    rfl
  | scalar hv =>
    cases hlast : p.lastToken with
    | valueFloat x =>
      simp only [hlast, Token.scalar] at hv
      split_ifs at hv with hfinite
      cases hv
      simp [parseValue, hlast, hfinite]
    | literalTrue | literalFalse | literalNull | valueString | valueUnsigned | valueInteger =>
      simp only [hlast, Token.scalar, Option.some.injEq] at hv
      subst hv
      simp only [parseValue, hlast]
    | _ => simp [hlast, Token.scalar] at hv

theorem evaluateState_complete {p : JsonParser F} {t : Turn F}
    (h : EvaluateTurn lib p t) : p.evaluateState lib = .ok t := by
  cases h with
  | done hstates => simp only [evaluateState, hstates]
  | nextElement hstates hlast | endArray hstates hlast | endObject hstates hlast =>
    simp only [evaluateState, hstates, hlast]
  | nextMember hstates hsep hkey =>
    simp only [evaluateState, hstates, hsep, hkey]
    rfl

/-! ### Why the loop ends -/

variable (lib) in
theorem getToken_bound (p : JsonParser F) :
    (p.getToken lib).input.length ≤ p.input.length ∧
      ((p.getToken lib).lastToken.isStop = false →
        (p.getToken lib).input.length < p.input.length) := by
  unfold getToken
  split
  · rename_i token input hscan
    obtain ⟨ws, -, ⟨rfl, input', hinput, -, rfl⟩ | ⟨text, hinput, htext, -⟩⟩ :=
      Lexer.scan_sound hscan
    · rw [hinput]
      simp [Token.isStop]
      omega
    · have hpos := htext.length_pos
      rw [hinput]
      simp
      omega
  · simp [Token.isStop]

/-- What the turns that are left may still read. -/
def Turn.bound : Turn F → ℕ
  | .value p => if p.lastToken.isStop then 1 else 2 * p.input.length + 2
  | .evaluate p => 2 * p.input.length + 1
  | .done _ => 0

variable (lib) in
theorem bound_value_le (p : JsonParser F) :
    (Turn.value (p.getToken lib)).bound ≤ 2 * p.input.length + 1 := by
  have hlt := (getToken_bound lib p).2
  simp only [Turn.bound]
  split_ifs with hstop
  · omega
  · have := hlt (by simpa using hstop)
    omega

theorem parseKey_bound {p p' : JsonParser F} (h : p.parseKey lib = .ok p') :
    p'.input.length ≤ p.input.length := by
  obtain ⟨s, -, rfl, -⟩ := parseKey_eq_ok.mp h
  simpa using (getToken_bound lib (p.key s)).1

theorem parseValue_bound {p : JsonParser F} {t : Turn F} (h : p.parseValue lib = .ok t) :
    t.bound < (Turn.value p).bound := by
  have hstop {token : Token F} (hlast : p.lastToken = token) (hno : token.isStop = false) :
      (Turn.value p).bound = 2 * p.input.length + 2 := by simp [Turn.bound, hlast, hno]
  cases parseValue_sound h with
  | emptyObject hlast hend =>
    have hle := (getToken_bound lib p.startObject).1
    rw [hstop hlast rfl]
    simp only [startObject] at hle
    simp [Turn.bound, JsonParser.endObject, startObject]
    omega
  | @object p' hlast hkey =>
    have hle := (getToken_bound lib p.startObject).1
    have hle' := parseKey_bound hkey
    have := bound_value_le lib { p' with states := false :: p'.states }
    rw [hstop hlast rfl]
    simp only [startObject] at hle hle' this
    omega
  | emptyArray hlast hend =>
    have hle := (getToken_bound lib p.startArray).1
    rw [hstop hlast rfl]
    simp only [startArray] at hle
    simp [Turn.bound, JsonParser.endArray, startArray]
    omega
  | array hlast hend =>
    have hle := bound_value_le lib p.startArray
    rw [hstop hlast rfl]
    simp only [startArray, Turn.bound] at hle ⊢
    omega
  | scalar hv =>
    have hno : p.lastToken.isStop = false := by
      cases hlast : p.lastToken <;> first | rfl | simp [hlast, Token.scalar] at hv
    simp [Turn.bound, hno]

theorem evaluateState_bound {p : JsonParser F} {t : Turn F} (h : p.evaluateState lib = .ok t) :
    t.bound < (Turn.evaluate p).bound := by
  have hlt {token : Token F} (hlast : (p.getToken lib).lastToken = token)
      (hno : token.isStop = false) : (p.getToken lib).input.length < p.input.length :=
    (getToken_bound lib p).2 (by rw [hlast, hno])
  cases evaluateState_sound h with
  | done => simp [Turn.bound]
  | nextElement _ hsep =>
    have hle := bound_value_le lib (p.getToken lib)
    have := hlt hsep rfl
    simp only [Turn.bound] at hle ⊢
    omega
  | endArray _ hend | endObject _ hend =>
    have := hlt hend rfl
    simp [Turn.bound, JsonParser.endArray, JsonParser.endObject]
    omega
  | @nextMember _ p' _ hsep hkey =>
    have hle := bound_value_le lib p'
    have hkey := parseKey_bound hkey
    have hle' := (getToken_bound lib (p.getToken lib)).1
    have := hlt hsep rfl
    simp only [Turn.bound] at hle ⊢
    omega

variable (lib)

/-- `sax_parse_internal`. -/
def loop (t : Turn F) : Except ParseFailure (JsonParser F) :=
  match t with
  | .done p => .ok p
  | .value p =>
    match _h : p.parseValue lib with
    | .error failure => .error failure
    | .ok t => loop t
  | .evaluate p =>
    match _h : p.evaluateState lib with
    | .error failure => .error failure
    | .ok t => loop t
termination_by t.bound
decreasing_by
  · exact parseValue_bound ‹_›
  · exact evaluateState_bound ‹_›

variable {lib}

theorem loop_value {p : JsonParser F} {t : Turn F} (h : ValueTurn lib p t) :
    loop lib (.value p) = loop lib t := by
  rw [loop]
  split
  · rename_i heq
    cases heq.symm.trans (parseValue_complete h)
  · rename_i heq
    obtain rfl := Except.ok.inj (heq.symm.trans (parseValue_complete h))
    rfl

theorem loop_value_error {p : JsonParser F} {failure : ParseFailure}
    (h : p.parseValue lib = .error failure) : loop lib (.value p) = .error failure := by
  rw [loop]
  split
  · rename_i heq
    rw [Except.error.inj (heq.symm.trans h)]
  · rename_i heq
    cases heq.symm.trans h

theorem loop_evaluate {p : JsonParser F} {t : Turn F} (h : EvaluateTurn lib p t) :
    loop lib (.evaluate p) = loop lib t := by
  rw [loop]
  split
  · rename_i heq
    cases heq.symm.trans (evaluateState_complete h)
  · rename_i heq
    obtain rfl := Except.ok.inj (heq.symm.trans (evaluateState_complete h))
    rfl

/-- A run that ends has passed through turns that keep what every turn keeps. -/
theorem loop_induction {P : Turn F → Prop}
    (hvalue : ∀ p t, P (.value p) → ValueTurn lib p t → P t)
    (hevaluate : ∀ p t, P (.evaluate p) → EvaluateTurn lib p t → P t)
    {t : Turn F} {p : JsonParser F} (ht : P t) (h : loop lib t = .ok p) : P (.done p) := by
  fun_induction loop lib t with
  | case1 q =>
    cases h
    exact ht
  | case2 q failure hturn => cases h
  | case3 q t hturn ih => exact ih (hvalue q t ht (parseValue_sound hturn)) h
  | case4 q failure hturn => cases h
  | case5 q t hturn ih => exact ih (hevaluate q t ht (evaluateState_sound hturn)) h

variable (lib)

/-- `parse`, which is strict: nothing but the end may come behind the value. -/
def parse (text : Bytes) : Except ParseFailure (BasicJson F) :=
  match loop lib (.value (init lib text)) with
  | .error failure => .error failure
  | .ok p =>
    let p := p.getToken lib
    match p.lastToken with
    | .endOfInput => .ok p.root
    | _ => p.unexpected (some "end of input") "value"

end JsonParser
end WebrtcNativeDemo
