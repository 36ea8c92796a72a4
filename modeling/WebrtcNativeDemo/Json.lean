import Mathlib.Data.List.Defs
import WebrtcNativeDemo.WebsocketTransport

/-!
# JSON values

The values and accessors of `nlohmann/json.hpp` that the session uses, with the
exceptions they throw. The text format itself (`parse`, `dump`) and the casts of
floating point numbers are parameters.
-/

namespace WebrtcNativeDemo

/-- `nlohmann::json` over the type `F` of its floating point numbers. -/
inductive Json (F : Type) where
  | null
  | boolean (b : Bool)
  | numberInteger (i : Int64)
  | numberUnsigned (u : UInt64)
  | numberFloat (x : F)
  | string (s : String)
  | array (elements : List (Json F))
  | object (members : List (String × Json F))

/-- How an access to a JSON value can go wrong. An absent key under the constant
`operator[]` is an assertion, or undefined behaviour where those are off. -/
inductive Fault
  | parseError
  | typeError (id : ℕ) (what : String)
  | absentKey (key : String)
deriving DecidableEq, Repr

structure Nlohmann (F : Type) where
  parse : Bytes → Option (Json F)
  dump : Json F → String
  floatToInt64 : F → Int64
  floatToInt32 : F → Int32

namespace Json

variable {F : Type}

def typeName : Json F → String
  | null => "null"
  | object _ => "object"
  | array _ => "array"
  | string _ => "string"
  | boolean _ => "boolean"
  | numberInteger _ | numberUnsigned _ | numberFloat _ => "number"

def isObject : Json F → Bool
  | object _ => true
  | _ => false

def find (j : Json F) (key : String) : Option (Json F) :=
  match j with
  | object members => members.lookup key
  | _ => none

def getString : Json F → Except Fault String
  | string s => .ok s
  | j => .error (.typeError 302 ("type must be string, but is " ++ j.typeName))

/-- `get_arithmetic_value` for `int64_t`. -/
def getInt64 (lib : Nlohmann F) : Json F → Except Fault Int64
  | numberUnsigned u => .ok u.toInt64
  | numberInteger i => .ok i
  | numberFloat x => .ok (lib.floatToInt64 x)
  | j => .error (.typeError 302 ("type must be number, but is " ++ j.typeName))

/-- `from_json` for the arithmetic types that are not the library's own, among them
`int32_t`: it takes a boolean too. -/
def getInt32 (lib : Nlohmann F) : Json F → Except Fault Int32
  | numberUnsigned u => .ok u.toInt64.toInt32
  | numberInteger i => .ok i.toInt32
  | numberFloat x => .ok (lib.floatToInt32 x)
  | boolean b => .ok (if b then 1 else 0)
  | j => .error (.typeError 302 ("type must be number, but is " ++ j.typeName))

def value (j : Json F) (key default : String) : Except Fault String :=
  if j.isObject then
    match j.find key with
    | some v => v.getString
    | none => .ok default
  else .error (.typeError 306 ("cannot use value() with " ++ j.typeName))

/-- The constant `operator[]`. -/
def subscript (j : Json F) (key : String) : Except Fault (Json F) :=
  if j.isObject then
    match j.find key with
    | some v => .ok v
    | none => .error (.absentKey key)
  else .error (.typeError 305 ("cannot use operator[] with a string argument with " ++ j.typeName))

/-! ### When the accessors return -/

theorem bind_ok {ε α β : Type} {x : Except ε α} {f : α → Except ε β} {b : β} :
    x >>= f = .ok b ↔ ∃ a, x = .ok a ∧ f a = .ok b := by
  cases x with
  | error e => simp [bind, Except.bind]
  | ok a => simp [bind, Except.bind]

theorem find_isObject {j v : Json F} {key : String} (h : j.find key = some v) :
    j.isObject = true := by
  cases j <;> first | rfl | cases h

theorem getString_ok {j : Json F} {s : String} : j.getString = .ok s ↔ j = .string s := by
  cases j <;> simp [getString]

theorem subscript_ok {j v : Json F} {key : String} :
    j.subscript key = .ok v ↔ j.find key = some v := by
  by_cases ho : j.isObject = true
  · cases hf : j.find key <;> simp [subscript, ho, hf]
  · have hf : j.find key ≠ some v := fun h => ho (find_isObject h)
    simp [subscript, ho, hf]

theorem value_ok {j : Json F} {key default s : String} :
    j.value key default = .ok s ↔ j.isObject = true ∧
      (j.find key = some (.string s) ∨ j.find key = none ∧ default = s) := by
  by_cases ho : j.isObject = true
  · cases hf : j.find key <;> simp [value, ho, hf, getString_ok]
  · simp [value, ho]

def isNumber : Json F → Bool
  | numberUnsigned _ | numberInteger _ | numberFloat _ => true
  | _ => false

def isBoolean : Json F → Bool
  | boolean _ => true
  | _ => false

def isString : Json F → Bool
  | string _ => true
  | _ => false

theorem getInt64_isOk (lib : Nlohmann F) (j : Json F) :
    (∃ n, j.getInt64 lib = .ok n) ↔ j.isNumber = true := by
  cases j <;> simp [getInt64, isNumber]

theorem getInt32_isOk (lib : Nlohmann F) (j : Json F) :
    (∃ n, j.getInt32 lib = .ok n) ↔ j.isNumber = true ∨ j.isBoolean = true := by
  cases j <;> simp [getInt32, isNumber, isBoolean]

theorem getString_isOk (j : Json F) : (∃ s, j.getString = .ok s) ↔ j.isString = true := by
  cases j <;> simp [getString, isString]

theorem value_isOk (j : Json F) (key default : String) :
    (∃ s, j.value key default = .ok s) ↔
      j.isObject = true ∧ ∀ v, j.find key = some v → v.isString = true := by
  by_cases ho : j.isObject = true
  · cases hf : j.find key <;> simp [value, ho, hf, getString_isOk]
  · simp [value, ho]

end Json
end WebrtcNativeDemo
