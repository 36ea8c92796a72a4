import WebrtcNativeDemo.Library.OrderedMap
import WebrtcNativeDemo.Library.Utf8
import WebrtcNativeDemo.WebsocketTransport

/-!
# JSON values and their bytes

`basic_json` of `nlohmann/json.hpp` with strings as the bytes they are, which is what
the lexer produces and the serializer writes. An object keeps its members in the order
of their keys, as `std::map` does. Binary and discarded values are left out: no text is
parsed as one. Floating point numbers and the functions of the C library for them are
parameters.
-/

namespace WebrtcNativeDemo

inductive BasicJson (F : Type) where
  | null
  | boolean (b : Bool)
  | numberInteger (i : Int64)
  | numberUnsigned (u : UInt64)
  | numberFloat (x : F)
  | string (s : Bytes)
  | array (elements : List (BasicJson F))
  | object (members : List (Bytes × BasicJson F))

/-- `std::strtod`, `std::isfinite`, and the shortest digits of `to_chars`. -/
structure FloatLib (F : Type) where
  strtod : Bytes → F
  isFinite : F → Bool
  toChars : F → Bytes

namespace BasicJson

variable {F : Type}

def children : BasicJson F → List (BasicJson F)
  | array elements => elements
  | object members => members.map Prod.snd
  | _ => []

/-- Induction over a value: what holds of its children holds of it. -/
theorem induction {P : BasicJson F → Prop} (h : ∀ v, (∀ w ∈ v.children, P w) → P v)
    (v : BasicJson F) : P v := by
  refine @BasicJson.rec F P (fun elements => ∀ w ∈ elements, P w)
    (fun members => ∀ w ∈ members.map Prod.snd, P w) (fun member => P member.2)
    ?_ ?_ ?_ ?_ ?_ ?_ ?_ ?_ ?_ ?_ ?_ ?_ ?_ v
  case refine_1 => exact h _ fun _ hw => by cases hw
  case refine_2 | refine_3 | refine_4 | refine_5 | refine_6 =>
    exact fun _ => h _ fun _ hw => by cases hw
  case refine_7 | refine_8 => exact fun _ ih => h _ ih
  case refine_9 | refine_11 => exact fun _ hw => by cases hw
  case refine_10 => exact fun _ _ ihv ihs => List.forall_mem_cons.mpr ⟨ihv, ihs⟩
  case refine_12 => exact fun _ _ ihv ihs => List.forall_mem_cons.mpr ⟨ihv, ihs⟩
  case refine_13 => exact fun _ _ ih => ih

/-- `p` holds of a value and of everything in it. -/
inductive Everywhere (p : BasicJson F → Prop) : BasicJson F → Prop
  | intro {v : BasicJson F} (h : p v) (hc : ∀ w ∈ v.children, Everywhere p w) : Everywhere p v

theorem Everywhere.here {p : BasicJson F → Prop} {v : BasicJson F} (h : Everywhere p v) : p v := by
  cases h with
  | intro h _ => exact h

theorem Everywhere.child {p : BasicJson F → Prop} {v w : BasicJson F} (h : Everywhere p v)
    (hw : w ∈ v.children) : Everywhere p w := by
  cases h with
  | intro _ hc => exact hc w hw

theorem everywhere_iff {p : BasicJson F → Prop} {v : BasicJson F} :
    Everywhere p v ↔ p v ∧ ∀ w ∈ v.children, Everywhere p w :=
  ⟨fun h => ⟨h.here, fun _ hw => h.child hw⟩, fun h => .intro h.1 h.2⟩

theorem Everywhere.mono {p q : BasicJson F → Prop} {v : BasicJson F} (h : Everywhere p v)
    (hpq : ∀ w, p w → q w) : Everywhere q v := by
  induction h with
  | intro h _ ih => exact .intro (hpq _ h) ih

def Utf8Here : BasicJson F → Prop
  | string s => Utf8.Valid s
  | object members => ∀ k ∈ OrderedMap.keys members, Utf8.Valid k
  | _ => True

/-- The strings of a value are UTF-8 and its members are ordered. -/
def WellFormedHere : BasicJson F → Prop
  | string s => Utf8.Valid s
  | object members => OrderedMap.Sorted members ∧ ∀ k ∈ OrderedMap.keys members, Utf8.Valid k
  | _ => True

def WellFormed (v : BasicJson F) : Prop := Everywhere WellFormedHere v

theorem WellFormed.utf8 {v : BasicJson F} (h : v.WellFormed) : Everywhere Utf8Here v := by
  refine h.mono fun w hw => ?_
  cases w with
  | string s => exact hw
  | object members => exact hw.2
  | _ => trivial

/-- No number is one that a text cannot say: an infinite one, or one with a minus sign
and a value above zero. -/
def ReadableHere (lib : FloatLib F) : BasicJson F → Prop
  | numberFloat x => lib.isFinite x = true
  | numberInteger i => i.toInt ≤ 0
  | _ => True

def Readable (lib : FloatLib F) (v : BasicJson F) : Prop := Everywhere (ReadableHere lib) v

end BasicJson
end WebrtcNativeDemo
