import WebrtcNativeDemo.SerializerNumbers
import WebrtcNativeDemo.SerializerStrings

/-!
# The serializer

`serializer::dump` of `nlohmann/json.hpp`, without the binary and the discarded values,
which `BasicJson` does not have. It threads `indent_string`, from which the margins of
pretty printed lines are taken.
-/

namespace WebrtcNativeDemo

/-- The parameters that a call hands on unchanged. -/
structure DumpOptions where
  prettyPrint : Bool
  ensureAscii : Bool
  indentStep : ℕ
  errorHandler : ErrorHandler

namespace Serializer

/-- `write_characters(indent_string.c_str(), n)`. The zero byte behind the string can be
read, and no byte behind that. -/
def margin (indentString : Bytes) (n : ℕ) : Except DumpFailure Bytes :=
  if n ≤ indentString.length + 1 then .ok ((indentString ++ [0]).take n) else .error .overread

def resize (indentString : Bytes) (newIndent : ℕ) : Bytes :=
  if indentString.length < newIndent then
    indentString ++ List.replicate indentString.length 0x20
  else indentString

variable {F : Type} (lib : FloatLib F) (o : DumpOptions)

def newIndent (currentIndent : ℕ) : ℕ :=
  if o.prettyPrint then (currentIndent + o.indentStep) % 2 ^ 32 else currentIndent

def lineStart (indentString : Bytes) (n : ℕ) : Except DumpFailure Bytes :=
  if o.prettyPrint then margin indentString n else .ok []

def newline : Bytes := if o.prettyPrint then [0x0A] else []

def keySeparator : Bytes := if o.prettyPrint then [0x22, 0x3A, 0x20] else [0x22, 0x3A]

def dumpFloat (x : F) : Bytes :=
  if lib.isFinite x then lib.toChars x else [0x6E, 0x75, 0x6C, 0x6C]

/-- `indent_string` for what is inside a container. -/
def innerIndent (indentString : Bytes) (currentIndent : ℕ) : Bytes :=
  if o.prettyPrint then resize indentString (newIndent o currentIndent) else indentString

def numberBuffer : Bytes := List.replicate 64 0

mutual

/-- What is written for a value, and `indent_string` afterwards. -/
def dump (val : BasicJson F) (currentIndent : ℕ) (indentString : Bytes) :
    Except DumpFailure (Bytes × Bytes) :=
  match val with
  | .object [] => .ok ([0x7B, 0x7D], indentString)
  | .object (member :: members) => do
    let indentString := innerIndent o indentString currentIndent
    let (body, indentString) ←
      dumpMembers (member :: members) (newIndent o currentIndent) indentString
    let last ← lineStart o indentString currentIndent
    return (0x7B :: (newline o ++ body) ++ (newline o ++ last ++ [0x7D]), indentString)
  | .array [] => .ok ([0x5B, 0x5D], indentString)
  | .array (element :: elements) => do
    let indentString := innerIndent o indentString currentIndent
    let (body, indentString) ←
      dumpElements (element :: elements) (newIndent o currentIndent) indentString
    let last ← lineStart o indentString currentIndent
    return (0x5B :: (newline o ++ body) ++ (newline o ++ last ++ [0x5D]), indentString)
  | .string s => do
    let text ← dumpEscaped o.errorHandler o.ensureAscii s
    return (0x22 :: (text ++ [0x22]), indentString)
  | .boolean true => .ok ([0x74, 0x72, 0x75, 0x65], indentString)
  | .boolean false => .ok ([0x66, 0x61, 0x6C, 0x73, 0x65], indentString)
  | .numberInteger i => .ok (dumpInteger numberBuffer i, indentString)
  | .numberUnsigned u => .ok (dumpUnsigned numberBuffer u, indentString)
  | .numberFloat x => .ok (dumpFloat lib x, indentString)
  | .null => .ok ([0x6E, 0x75, 0x6C, 0x6C], indentString)

/-- The loop over the elements of an array, with the last one behind it. -/
def dumpElements (elements : List (BasicJson F)) (newIndent : ℕ) (indentString : Bytes) :
    Except DumpFailure (Bytes × Bytes) :=
  match elements with
  | [] => .ok ([], indentString)
  | element :: elements => do
    let start ← lineStart o indentString newIndent
    let (text, indentString) ← dump element newIndent indentString
    if elements.isEmpty then return (start ++ text, indentString)
    else
      let (body, indentString) ← dumpElements elements newIndent indentString
      return (start ++ text ++ 0x2C :: (newline o ++ body), indentString)

def dumpMembers (members : List (Bytes × BasicJson F)) (newIndent : ℕ) (indentString : Bytes) :
    Except DumpFailure (Bytes × Bytes) :=
  match members with
  | [] => .ok ([], indentString)
  | (key, value) :: members => do
    let start ← lineStart o indentString newIndent
    let key ← dumpEscaped o.errorHandler o.ensureAscii key
    let (text, indentString) ← dump value newIndent indentString
    let line := start ++ 0x22 :: key ++ keySeparator o ++ text
    if members.isEmpty then return (line, indentString)
    else
      let (body, indentString) ← dumpMembers members newIndent indentString
      return (line ++ 0x2C :: (newline o ++ body), indentString)

end

end Serializer

/-- `basic_json::dump`. -/
def BasicJson.dump {F : Type} (lib : FloatLib F) (v : BasicJson F) (indent : Int32)
    (indentChar : UInt8) (ensureAscii : Bool) (errorHandler : ErrorHandler) :
    Except DumpFailure Bytes :=
  let o : DumpOptions :=
    if 0 ≤ indent.toInt then ⟨true, ensureAscii, indent.toInt.toNat, errorHandler⟩
    else ⟨false, ensureAscii, 0, errorHandler⟩
  (Serializer.dump lib o v 0 (List.replicate 512 indentChar)).map Prod.fst

namespace Serializer

variable {F : Type} {lib : FloatLib F} {o : DumpOptions}

/-! ### The margins -/

section Margins

variable {p : UInt8 → Prop} {indentString start : Bytes}

theorem forall_mem_newline (hline : p 0x0A) : ∀ b ∈ newline o, p b := by
  unfold newline
  split_ifs
  · simpa using hline
  · simp

/-- A margin gets longer by blanks only. -/
theorem forall_mem_innerIndent (hblank : p 0x20) (h : ∀ b ∈ indentString, p b) (n : ℕ) :
    ∀ b ∈ innerIndent o indentString n, p b := by
  unfold innerIndent resize
  split_ifs
  · exact List.forall_mem_append.mpr ⟨h, List.forall_mem_replicate.mpr (.inr hblank)⟩
  · exact h
  · exact h

/-- `indent_string` is long enough for the lines at this depth. -/
def Fits (o : DumpOptions) (n : ℕ) (s : Bytes) : Prop :=
  o.prettyPrint = true → n ≤ s.length + 1

/-- The same without the zero byte, and one doubling makes it long enough for the next
depth. -/
def Roomy (o : DumpOptions) (n : ℕ) (s : Bytes) : Prop :=
  o.prettyPrint = true → n ≤ s.length ∧ 512 ≤ s.length ∧ (n = 0 ∨ o.indentStep ≤ s.length)

theorem Roomy.fits {n : ℕ} {s : Bytes} (h : Roomy o n s) : Fits o n s :=
  fun hpretty => Nat.le_succ_of_le (h hpretty).1

theorem Fits.mono {n : ℕ} {s s' : Bytes} (h : Fits o n s) (hs : s.length ≤ s'.length) :
    Fits o n s' := by
  intro hpretty
  have hn := h hpretty
  omega

theorem Roomy.mono {n : ℕ} {s s' : Bytes} (h : Roomy o n s) (hs : s.length ≤ s'.length) :
    Roomy o n s' := by
  intro hpretty
  obtain ⟨hn, hlow, hstep⟩ := h hpretty
  exact ⟨by omega, by omega, hstep.imp_right fun hstep => by omega⟩

theorem forall_mem_lineStart {n : ℕ} (h : ∀ b ∈ indentString, p b)
    (hend : p 0 ∨ Roomy o n indentString) (hstart : lineStart o indentString n = .ok start) :
    ∀ b ∈ start, p b := by
  unfold lineStart margin at hstart
  split_ifs at hstart with hpretty
  · obtain rfl := Except.ok.inj hstart
    intro b hb
    rcases hend with hzero | hroomy
    · rcases List.mem_append.mp (List.mem_of_mem_take hb) with hb | hb
      · exact h b hb
      · rwa [List.mem_singleton.mp hb]
    · rw [List.take_append_of_le_length (hroomy hpretty).1] at hb
      exact h b (List.mem_of_mem_take hb)
  · obtain rfl := Except.ok.inj hstart
    simp

end Margins

theorem resize_length (s : Bytes) (n : ℕ) :
    (resize s n).length = if s.length < n then 2 * s.length else s.length := by
  unfold resize
  split_ifs
  · simp
    omega
  · rfl

theorem innerIndent_length (s : Bytes) (n : ℕ) : s.length ≤ (innerIndent o s n).length := by
  unfold innerIndent
  split_ifs
  · rw [resize_length]
    split_ifs <;> omega
  · exact Nat.le_refl _

theorem newIndent_pretty (hpretty : o.prettyPrint = true) (n : ℕ) :
    newIndent o n = (n + o.indentStep) % 2 ^ 32 := if_pos hpretty

theorem innerIndent_pretty (hpretty : o.prettyPrint = true) (s : Bytes) (n : ℕ) :
    innerIndent o s n = resize s (newIndent o n) := if_pos hpretty

theorem Roomy.inner {n : ℕ} {s : Bytes} (h : Roomy o n s) (hstep : o.indentStep ≤ 1024) :
    Roomy o (newIndent o n) (innerIndent o s n) := by
  intro hpretty
  obtain ⟨hn, hlow, hroom⟩ := h hpretty
  have hnew := newIndent_pretty hpretty n
  have hle : newIndent o n ≤ n + o.indentStep := hnew ▸ Nat.mod_le _ _
  rw [innerIndent_pretty hpretty, resize_length]
  rcases hroom with rfl | hroom
  · rw [Nat.zero_add, Nat.mod_eq_of_lt (by omega)] at hnew
    split_ifs <;> omega
  · split_ifs <;> omega

/-- Only a string has gone wrong, or what has come is as `P` says. -/
def Safe {α : Type} (handler : ErrorHandler) (x : Except DumpFailure α) (P : α → Prop) : Prop :=
  match x with
  | .ok a => P a
  | .error failure => handler = .strict ∧ ∃ message, failure = .typeError message

theorem Safe.bind {α β : Type} {handler : ErrorHandler} {x : Except DumpFailure α}
    {f : α → Except DumpFailure β} {P : α → Prop} {Q : β → Prop} (hx : Safe handler x P)
    (hf : ∀ a, P a → Safe handler (f a) Q) : Safe handler (x >>= f) Q := by
  cases x with
  | ok a => exact hf a hx
  | error failure => exact hx

theorem Fits.lineStart {n : ℕ} {s : Bytes} (h : Fits o n s) :
    Safe o.errorHandler (lineStart o s n) fun _ => True := by
  unfold Serializer.lineStart margin
  split_ifs with hpretty hlong
  · trivial
  · exact absurd (h hpretty) hlong
  · trivial

theorem dumpEscaped_safe (handler : ErrorHandler) (ensureAscii : Bool) (s : Bytes) :
    Safe handler (dumpEscaped handler ensureAscii s) fun _ => True := by
  obtain ⟨cs, -, hout⟩ := dumpEscaped_outcome handler ensureAscii s
  by_cases hthrow : handler = .strict ∧ none ∈ cs
  · obtain ⟨message, hmessage⟩ := hout.throws hthrow.1 hthrow.2
    rw [hmessage]
    exact ⟨hthrow.1, message, rfl⟩
  · rw [hout.writes fun hstrict hmem => hthrow ⟨hstrict, hmem⟩]
    trivial

/-- `indent_string` is as long afterwards as it was, at least. -/
def SafeDump (lib : FloatLib F) (o : DumpOptions) (v : BasicJson F) (n : ℕ) (s : Bytes) : Prop :=
  Safe o.errorHandler (dump lib o v n s) fun r => s.length ≤ r.2.length

theorem dumpElements_safe {vs : List (BasicJson F)} {n : ℕ} {s : Bytes} (h : Fits o n s)
    (ih : ∀ v ∈ vs, ∀ s', s.length ≤ s'.length → SafeDump lib o v n s') :
    Safe o.errorHandler (dumpElements lib o vs n s) fun r => s.length ≤ r.2.length := by
  induction vs generalizing s with
  | nil => exact Nat.le_refl _
  | cons v vs ihl =>
    obtain ⟨hv, hvs⟩ := List.forall_mem_cons.mp ih
    rw [dumpElements]
    refine h.lineStart.bind fun _ _ => (hv s (Nat.le_refl _)).bind fun ⟨text, s'⟩ hs' => ?_
    cases vs with
    | nil => exact hs'
    | cons w vs =>
      have hrest := ihl (h.mono hs') fun u hu t ht => hvs u hu t (Nat.le_trans hs' ht)
      exact hrest.bind fun r hr => Nat.le_trans hs' hr

theorem dumpMembers_safe {ms : List (Bytes × BasicJson F)} {n : ℕ} {s : Bytes} (h : Fits o n s)
    (ih : ∀ e ∈ ms, ∀ s', s.length ≤ s'.length → SafeDump lib o e.2 n s') :
    Safe o.errorHandler (dumpMembers lib o ms n s) fun r => s.length ≤ r.2.length := by
  induction ms generalizing s with
  | nil => exact Nat.le_refl _
  | cons e ms ihl =>
    obtain ⟨k, v⟩ := e
    obtain ⟨hv, hms⟩ := List.forall_mem_cons.mp ih
    rw [dumpMembers]
    refine h.lineStart.bind fun _ _ => (dumpEscaped_safe _ _ k).bind fun _ _ =>
      (hv s (Nat.le_refl _)).bind fun ⟨text, s'⟩ hs' => ?_
    cases ms with
    | nil => exact hs'
    | cons d ms =>
      have hrest := ihl (h.mono hs') fun u hu t ht => hms u hu t (Nat.le_trans hs' ht)
      exact hrest.bind fun r hr => Nat.le_trans hs' hr

/-- A value is written safely if its own lines fit and so do its children. -/
theorem dump_children {v : BasicJson F} {n : ℕ} {s : Bytes} (h : Fits o n s)
    (hinner : v.children ≠ [] → Fits o (newIndent o n) (innerIndent o s n))
    (ih : ∀ w ∈ v.children, ∀ s', (innerIndent o s n).length ≤ s'.length →
      SafeDump lib o w (newIndent o n) s') : SafeDump lib o v n s := by
  have hgrow := innerIndent_length (o := o) s n
  unfold SafeDump
  cases v with
  | string t =>
    rw [dump]
    exact (dumpEscaped_safe _ _ t).bind fun _ _ => Nat.le_refl _
  | array elements =>
    cases elements with
    | nil => exact Nat.le_refl _
    | cons e elements =>
      rw [dump]
      refine (dumpElements_safe (hinner (by simp [BasicJson.children])) ih).bind
        fun ⟨body, s'⟩ hs' => ?_
      have hs' := Nat.le_trans hgrow hs'
      exact (h.mono hs').lineStart.bind fun _ _ => hs'
  | object members =>
    cases members with
    | nil => exact Nat.le_refl _
    | cons e members =>
      have ih : ∀ d ∈ e :: members, ∀ s', (innerIndent o s n).length ≤ s'.length →
          SafeDump lib o d.2 (newIndent o n) s' :=
        fun d hd => ih d.2 (List.mem_map_of_mem hd)
      rw [dump]
      refine (dumpMembers_safe (hinner (by simp [BasicJson.children])) ih).bind
        fun ⟨body, s'⟩ hs' => ?_
      have hs' := Nat.le_trans hgrow hs'
      exact (h.mono hs').lineStart.bind fun _ _ => hs'
  | boolean b => cases b <;> exact Nat.le_refl _
  | _ => exact Nat.le_refl _

theorem dump_safe (hstep : o.indentStep ≤ 1024) (v : BasicJson F) :
    ∀ {n s}, Roomy o n s → SafeDump lib o v n s := by
  induction v using BasicJson.induction with
  | h v ih =>
    intro n s h
    exact dump_children h.fits (fun _ => (h.inner hstep).fits) fun w hw s' hs' =>
      ih w hw ((h.inner hstep).mono hs')

/-! ### Values without children and values that are too deep -/

/-- A value without children is written on one line, with any `indent_string`. -/
theorem dump_leaf {v : BasicJson F} (hv : v.children = []) (n : ℕ) (s : Bytes) :
    (∃ text, dump lib o v n s = .ok (text, s)) ∨
      o.errorHandler = .strict ∧ ∃ message, dump lib o v n s = .error (.typeError message) := by
  cases v with
  | string t =>
    have hsafe := dumpEscaped_safe o.errorHandler o.ensureAscii t
    rw [dump]
    cases htext : dumpEscaped o.errorHandler o.ensureAscii t with
    | ok text => exact .inl ⟨_, rfl⟩
    | error failure =>
      rw [htext] at hsafe
      obtain ⟨hstrict, message, rfl⟩ := hsafe
      exact .inr ⟨hstrict, message, rfl⟩
  | array elements =>
    obtain rfl : elements = [] := hv
    exact .inl ⟨_, rfl⟩
  | object members =>
    obtain rfl : members = [] := List.map_eq_nil_iff.mp hv
    exact .inl ⟨_, rfl⟩
  | boolean b => cases b <;> exact .inl ⟨_, rfl⟩
  | _ => exact .inl ⟨_, rfl⟩

theorem dump_leaf_safe {v : BasicJson F} (hv : v.children = []) (n : ℕ) (s : Bytes) :
    SafeDump lib o v n s := by
  unfold SafeDump
  have hleaf : (∃ text, dump lib o v n s = .ok (text, s)) ∨ _ := dump_leaf hv n s
  obtain ⟨text, htext⟩ | ⟨hstrict, message, hthrow⟩ := hleaf
  · rw [htext]
    exact Nat.le_refl _
  · rw [hthrow]
    exact ⟨hstrict, message, rfl⟩

/-- The first line of a value with children is longer than `indent_string` and its zero. -/
theorem dump_overread (hpretty : o.prettyPrint = true) {n : ℕ} {s : Bytes}
    (hlong : (innerIndent o s n).length + 1 < newIndent o n) {v : BasicJson F}
    (hv : v.children ≠ []) : dump lib o v n s = .error .overread := by
  have hline : lineStart o (innerIndent o s n) (newIndent o n) = .error .overread := by
    rw [lineStart, if_pos hpretty, margin, if_neg (by omega)]
  cases v with
  | array elements =>
    cases elements with
    | nil => exact absurd rfl hv
    | cons e elements =>
      rw [dump, dumpElements, hline]
      rfl
  | object members =>
    cases members with
    | nil => exact absurd rfl hv
    | cons e members =>
      rw [dump, dumpMembers, hline]
      rfl
  | _ => exact absurd rfl hv

/-- It was read behind `indent_string`, or a string threw before that. -/
def Overreads {α : Type} (handler : ErrorHandler) (x : Except DumpFailure α) : Prop :=
  x = .error .overread ∨ handler = .strict ∧ ∃ message, x = .error (.typeError message)

theorem Overreads.bind {α β : Type} {handler : ErrorHandler} {x : Except DumpFailure α}
    (h : Overreads handler x) (f : α → Except DumpFailure β) : Overreads handler (x >>= f) := by
  rcases h with rfl | ⟨hstrict, message, rfl⟩
  · exact .inl rfl
  · exact .inr ⟨hstrict, message, rfl⟩

section Nested

variable (hpretty : o.prettyPrint = true) {n : ℕ} {s : Bytes} (hfits : Fits o n s)
  (hlong : (innerIndent o s n).length + 1 < newIndent o n)
include hpretty hlong

include hfits

end Nested

theorem roomy_start (o : DumpOptions) (c : UInt8) : Roomy o 0 (List.replicate 512 c) := by
  intro _
  rw [List.length_replicate]
  exact ⟨Nat.zero_le _, Nat.le_refl _, .inl rfl⟩

theorem newIndent_start (hpretty : o.prettyPrint = true) (hstep : o.indentStep < 2 ^ 32) :
    newIndent o 0 = o.indentStep := by
  rw [newIndent_pretty hpretty, Nat.zero_add, Nat.mod_eq_of_lt hstep]

theorem innerIndent_start (hpretty : o.prettyPrint = true) (hstep : 512 < o.indentStep)
    (hstep' : o.indentStep < 2 ^ 32) (c : UInt8) :
    (innerIndent o (List.replicate 512 c) 0).length = 1024 := by
  rw [innerIndent_pretty hpretty, resize_length, newIndent_start hpretty hstep',
    List.length_replicate, if_pos (by omega)]

section Start

variable (hpretty : o.prettyPrint = true) (c : UInt8) {v : BasicJson F}
include hpretty

theorem start_overread (hstep : 1025 < o.indentStep) (hstep' : o.indentStep < 2 ^ 32)
    (hv : v.children ≠ []) : dump lib o v 0 (List.replicate 512 c) = .error .overread := by
  apply dump_overread hpretty ?_ hv
  rw [innerIndent_start hpretty (by omega) hstep', newIndent_start hpretty hstep']
  omega

end Start

theorem start_safe (c : UInt8) {v : BasicJson F} (h : o.indentStep ≤ 1024 ∨
      o.indentStep = 1025 ∧ ∀ w ∈ v.children, w.children = []) :
    SafeDump lib o v 0 (List.replicate 512 c) := by
  rcases h with hstep | ⟨hstep, hflat⟩
  · exact dump_safe hstep v (roomy_start o c)
  · refine dump_children (roomy_start o c).fits (fun _ hpretty => ?_)
      fun w hw s' _ => dump_leaf_safe (hflat w hw) _ s'
    rw [innerIndent_start hpretty (by omega) (by omega), newIndent_start hpretty (by omega), hstep]

theorem Safe.map_error {α β : Type} {handler : ErrorHandler} {x : Except DumpFailure α}
    {P : α → Prop} {f : α → β} {failure : DumpFailure} (hx : Safe handler x P)
    (h : x.map f = .error failure) :
    handler = .strict ∧ ∃ message, failure = .typeError message := by
  cases x with
  | ok a => cases h
  | error e =>
    obtain ⟨hstrict, message, rfl⟩ := hx
    cases h
    exact ⟨hstrict, message, rfl⟩

theorem Overreads.map {α β : Type} {handler : ErrorHandler} {x : Except DumpFailure α}
    (h : Overreads handler x) (f : α → β) : Overreads handler (x.map f) := by
  rcases h with rfl | ⟨hstrict, message, rfl⟩
  · exact .inl rfl
  · exact .inr ⟨hstrict, message, rfl⟩

section Options

variable {v : BasicJson F} {indent : Int32} {indentChar : UInt8} {ensureAscii : Bool}
  {handler : ErrorHandler}

theorem dump_pretty (h : 0 ≤ indent.toInt) :
    v.dump lib indent indentChar ensureAscii handler =
      (dump lib ⟨true, ensureAscii, indent.toInt.toNat, handler⟩ v 0
        (List.replicate 512 indentChar)).map Prod.fst := by
  rw [BasicJson.dump, if_pos h]

theorem dump_compact (h : ¬ 0 ≤ indent.toInt) :
    v.dump lib indent indentChar ensureAscii handler =
      (dump lib ⟨false, ensureAscii, 0, handler⟩ v 0
        (List.replicate 512 indentChar)).map Prod.fst := by
  rw [BasicJson.dump, if_neg h]

end Options

end Serializer
end WebrtcNativeDemo
