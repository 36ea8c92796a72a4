import WebrtcNativeDemo.JsonParser

/-!
# The grammar of a JSON text

RFC 8259 with white space counted to the token behind it, and the value that a text
stands for: of two members with one key the later one counts. The parser accepts
exactly these texts, whatever its stacks hold on the way.
-/

namespace WebrtcNativeDemo.JsonParser

open Lexer

variable {F : Type} (lib : FloatLib F)

/-- What a piece of text can be: a value, elements with commas between them, or members. -/
inductive Sym (F : Type) where
  | value (v : BasicJson F)
  | elements (vs : List (BasicJson F))
  | members (ms : List (Bytes × BasicJson F))

inductive KeyText : Bytes → Bytes → Prop
  | intro {ws ws' text : Bytes} {cs : List Char} (hws : Whitespace ws) (h : StringText text cs)
      (hws' : Whitespace ws') :
      KeyText (ws ++ (0x22 :: (text ++ [0x22]) ++ (ws' ++ [0x3A]))) (Utf8.encode cs)

inductive Text : Sym F → Bytes → Prop
  | scalar {ws text : Bytes} {token : Token F} {v : BasicJson F} (hws : Whitespace ws)
      (ht : TokenText lib text token) (hv : token.scalar lib = some v) :
      Text (.value v) (ws ++ text)
  | emptyArray {ws ws' : Bytes} (hws : Whitespace ws) (hws' : Whitespace ws') :
      Text (.value (.array [])) (ws ++ 0x5B :: (ws' ++ [0x5D]))
  | array {ws ws' t : Bytes} {vs : List (BasicJson F)} (hws : Whitespace ws)
      (h : Text (.elements vs) t) (hws' : Whitespace ws') :
      Text (.value (.array vs)) (ws ++ 0x5B :: (t ++ (ws' ++ [0x5D])))
  | emptyObject {ws ws' : Bytes} (hws : Whitespace ws) (hws' : Whitespace ws') :
      Text (.value (.object [])) (ws ++ 0x7B :: (ws' ++ [0x7D]))
  | object {ws ws' t : Bytes} {ms : List (Bytes × BasicJson F)} (hws : Whitespace ws)
      (h : Text (.members ms) t) (hws' : Whitespace ws') :
      Text (.value (.object ms)) (ws ++ 0x7B :: (t ++ (ws' ++ [0x7D])))
  | oneElement {t : Bytes} {v : BasicJson F} (h : Text (.value v) t) : Text (.elements [v]) t
  | moreElements {ws t t' : Bytes} {vs : List (BasicJson F)} {v : BasicJson F}
      (h : Text (.elements vs) t) (hws : Whitespace ws) (h' : Text (.value v) t') :
      Text (.elements (vs ++ [v])) (t ++ (ws ++ 0x2C :: t'))
  | oneMember {t t' k : Bytes} {v : BasicJson F} (hk : KeyText t k) (h : Text (.value v) t') :
      Text (.members [(k, v)]) (t ++ t')
  | moreMembers {ws t t' t'' k : Bytes} {ms : List (Bytes × BasicJson F)} {v : BasicJson F}
      (h : Text (.members ms) t) (hws : Whitespace ws) (hk : KeyText t' k)
      (h' : Text (.value v) t'') :
      Text (.members (OrderedMap.insert k v ms)) (t ++ (ws ++ 0x2C :: (t' ++ t'')))

/-- A value and, but for white space, the end. -/
inductive Document : Bytes → BasicJson F → Prop
  | plain {t ws rest : Bytes} {v : BasicJson F} (h : Text lib (.value v) t) (hws : Whitespace ws)
      (hend : AtEnd rest) : Document (t ++ (ws ++ rest)) v
  | marked {t ws rest : Bytes} {v : BasicJson F} (h : Text lib (.value v) t) (hws : Whitespace ws)
      (hend : AtEnd rest) : Document (0xEF :: 0xBB :: 0xBF :: (t ++ (ws ++ rest))) v

/-! ### Tokens that the parser reads -/

variable {lib}

theorem getToken_text {p : JsonParser F} {ws text rest : Bytes} {token : Token F}
    (hinput : p.input = ws ++ (text ++ rest)) (hws : Whitespace ws)
    (ht : TokenText lib text token) (hsep : Separated text rest) :
    p.getToken lib = { p with lastToken := token, input := rest } := by
  rw [getToken, hinput, scan_token hws ht hsep]

theorem getToken_sound {p : JsonParser F} {token : Token F}
    (hlast : (p.getToken lib).lastToken = token) (hstop : token.isStop = false) :
    ∃ ws text, Whitespace ws ∧ p.input = ws ++ (text ++ (p.getToken lib).input) ∧
      TokenText lib text token := by
  unfold getToken at hlast ⊢
  split at hlast
  · rename_i token' input hscan
    obtain rfl : token' = token := hlast
    simp only
    obtain ⟨ws, hws, ⟨rfl, -⟩ | ⟨text, hinput, ht, -⟩⟩ := scan_sound hscan
    · cases hstop
    · exact ⟨ws, text, hws, hinput, ht⟩
  · obtain rfl : .parseError _ = token := hlast
    cases hstop

theorem getToken_refStack (p : JsonParser F) : (p.getToken lib).refStack = p.refStack := by
  unfold getToken
  split <;> rfl

/-- What may follow a value. -/
def Delimited (rest : Bytes) : Prop := ∀ b ∈ rest.head?, charClass b = .anything

theorem classes_of_accepts {s : NumberState} {type type' : NumberType} {u : Bytes}
    (h : Accepts s type u type') : ∀ b ∈ u, charClass b ≠ .anything := by
  induction u generalizing s type with
  | nil => simp
  | cons b u ih =>
    obtain ⟨s', hg, h⟩ := h
    refine List.forall_mem_cons.mpr ⟨?_, ih h⟩
    intro hb
    rw [hb] at hg
    cases s <;> cases hg

theorem numberText_classes {text : Bytes} {type : NumberType} (h : NumberText text type) :
    ∀ b ∈ text, charClass b ≠ .anything := by
  obtain ⟨b, u, rfl, hb⟩ := h.cons
  refine List.forall_mem_cons.mpr ⟨?_, classes_of_accepts ((accepts_number hb).mpr h)⟩
  rcases hb with rfl | hb
  · decide
  · rcases charClass_digit.mpr hb with hb | hb <;> simp [hb]

theorem Delimited.stops {text rest : Bytes} (h : Delimited rest) : Stops text rest :=
  fun b hb _ _ hw => numberText_classes hw b (by simp) (h b hb)

theorem Delimited.separated {text rest : Bytes} (h : Delimited rest) : Separated text rest :=
  fun _ _ => h.stops

theorem delimited_cons {rest : Bytes} {b : UInt8} (hb : charClass b = .anything) :
    Delimited (b :: rest) := by
  simpa [Delimited] using hb

theorem delimited_end {rest : Bytes} (hend : AtEnd rest) : Delimited rest := by
  intro b hb
  rw [hend b hb]
  rfl

theorem Delimited.append {ws rest : Bytes} (hws : Whitespace ws) (h : Delimited rest) :
    Delimited (ws ++ rest) := by
  cases ws with
  | nil => exact h
  | cons b ws =>
    have hb := hws b (by simp)
    simp only [isWhitespace, Bool.or_eq_true, decide_eq_true_eq] at hb
    apply delimited_cons
    rcases hb with ((rfl | rfl) | rfl) | rfl <;> rfl

/-! ### The parser accepts the texts -/

theorem getToken_with_states (p : JsonParser F) (states : List Bool) :
    { p.getToken lib with states := states } = getToken lib { p with states := states } := by
  cases hscan : scan lib p.input <;> simp [getToken, hscan]

theorem handleValue_with_states (p : JsonParser F) (v : BasicJson F) (states : List Bool) :
    { p.handleValue v with states := states } = handleValue { p with states := states } v := by
  rcases hstack : p.refStack with _ | ⟨_ | _, frames⟩ <;> simp [handleValue, hstack]

/-- What the loop does with a text that it meets where it expects one. -/
def Reads (lib : FloatLib F) : Sym F → Bytes → Prop
  | .value v, t => ∀ (p : JsonParser F) (rest : Bytes), p.input = t ++ rest → Delimited rest →
      (p.getToken lib).lastToken ≠ .endArray ∧
      ∃ token, loop lib (.value (p.getToken lib)) =
        loop lib (.evaluate (handleValue { p with input := rest, lastToken := token } v))
  | .elements vs, t => ∀ (p : JsonParser F) (rest : Bytes) (frames : List (Frame F))
      (states : List Bool), p.input = t ++ rest → Delimited rest →
      p.refStack = .array [] :: frames → p.states = true :: states →
      (p.getToken lib).lastToken ≠ .endArray ∧
      ∃ token, loop lib (.value (p.getToken lib)) =
        loop lib (.evaluate { p with
          input := rest, lastToken := token, refStack := .array vs :: frames })
  | .members ms, t => ∀ (p : JsonParser F) (rest k : Bytes) (frames : List (Frame F)),
      p.input = t ++ rest → Delimited rest → p.refStack = .object [] k :: frames →
      ∃ p' token k', (p.getToken lib).parseKey lib = .ok p' ∧
        loop lib (.value (getToken lib { p' with states := false :: p'.states })) =
          loop lib (.evaluate { p with
            input := rest, lastToken := token, states := false :: p.states
            refStack := .object ms k' :: frames })

variable (lib) in
theorem parseKey_text {p : JsonParser F} {t rest k k' : Bytes} {frames : List (Frame F)}
    {ms : List (Bytes × BasicJson F)} (hk : KeyText t k) (hinput : p.input = t ++ rest)
    (hstack : p.refStack = .object ms k' :: frames) :
    (p.getToken lib).parseKey lib = .ok { p with
      input := rest, lastToken := .nameSeparator, refStack := .object ms k :: frames } := by
  cases hk with
  | @intro ws ws' text cs hws h hws' =>
    have hinput' : p.input = ws ++ (0x22 :: (text ++ [0x22]) ++ (ws' ++ ([0x3A] ++ rest))) := by
      simp [hinput]
    have hstring : p.getToken lib = { p with
        lastToken := .valueString (Utf8.encode cs), input := ws' ++ ([0x3A] ++ rest) } :=
      getToken_text hinput' hws (.string h) (separated_of_not_start (by decide))
    refine parseKey_eq_ok.mpr ⟨Utf8.encode cs, by rw [hstring], ?_, rfl⟩
    rw [hstring]
    simp only [key, hstack]
    exact (getToken_text (p := { p with
      lastToken := _, input := ws' ++ ([0x3A] ++ rest), refStack := _ }) rfl hws' .nameSeparator
      (separated_of_not_start (by decide))).symm

/-- The turn that closes an array or object, and what it leaves. -/
theorem loop_endArray {p : JsonParser F} {ws rest : Bytes} {vs : List (BasicJson F)}
    {frames : List (Frame F)} {states : List Bool} (hws : Whitespace ws)
    (hinput : p.input = ws ++ ([0x5D] ++ rest)) (hstack : p.refStack = .array vs :: frames)
    (hstates : p.states = true :: states) :
    loop lib (.evaluate p) = loop lib (.evaluate (handleValue { p with
      input := rest, lastToken := .endArray, refStack := frames, states := states }
      (.array vs))) := by
  have hend : p.getToken lib = { p with lastToken := .endArray, input := rest } :=
    getToken_text hinput hws .endArray (separated_of_not_start (by decide))
  rw [loop_evaluate (.endArray hstates (by rw [hend])), hend]
  simp only [JsonParser.endArray, endContainer, hstack]
  rw [handleValue_with_states]
  rfl

theorem loop_endObject {p : JsonParser F} {ws rest k : Bytes} {ms : List (Bytes × BasicJson F)}
    {frames : List (Frame F)} {states : List Bool} (hws : Whitespace ws)
    (hinput : p.input = ws ++ ([0x7D] ++ rest)) (hstack : p.refStack = .object ms k :: frames)
    (hstates : p.states = false :: states) :
    loop lib (.evaluate p) = loop lib (.evaluate (handleValue { p with
      input := rest, lastToken := .endObject, refStack := frames, states := states }
      (.object ms))) := by
  have hend : p.getToken lib = { p with lastToken := .endObject, input := rest } :=
    getToken_text hinput hws .endObject (separated_of_not_start (by decide))
  rw [loop_evaluate (.endObject hstates (by rw [hend])), hend]
  simp only [JsonParser.endObject, endContainer, hstack]
  rw [handleValue_with_states]
  rfl

theorem reads_text {s : Sym F} {t : Bytes} (h : Text lib s t) : Reads lib s t := by
  induction h with
  | @scalar ws text token v hws ht hv =>
    intro p rest hinput hrest
    have htoken : p.getToken lib = { p with lastToken := token, input := rest } :=
      getToken_text (by simpa using hinput) hws ht hrest.separated
    refine ⟨?_, token, ?_⟩
    · rw [htoken]
      rintro rfl
      cases hv
    · rw [htoken, loop_value (.scalar hv)]
  | @emptyArray ws ws' hws hws' =>
    intro p rest hinput hrest
    have hbegin : p.getToken lib = { p with
        lastToken := .beginArray, input := ws' ++ ([0x5D] ++ rest) } :=
      getToken_text (by simp [hinput]) hws .beginArray (separated_of_not_start (by decide))
    have hend : getToken lib (startArray (p.getToken lib)) = { p with
        input := rest, lastToken := .endArray, refStack := .array [] :: p.refStack } := by
      rw [hbegin]
      exact getToken_text rfl hws' .endArray (separated_of_not_start (by decide))
    refine ⟨by rw [hbegin]; simp, .endArray, ?_⟩
    rw [loop_value (.emptyArray (by rw [hbegin]) (by rw [hend])), hend]
    rfl
  | @array ws ws' t vs hws _ hws' ih =>
    intro p rest hinput hrest
    have hbegin : p.getToken lib = { p with
        lastToken := .beginArray, input := t ++ (ws' ++ ([0x5D] ++ rest)) } :=
      getToken_text (by simp [hinput]) hws .beginArray (separated_of_not_start (by decide))
    have hstates : (p.getToken lib).states = p.states := getToken_states p
    obtain ⟨hne, token, hloop⟩ := ih
      { startArray (p.getToken lib) with states := true :: (p.getToken lib).states }
      (ws' ++ ([0x5D] ++ rest)) p.refStack p.states (by rw [hbegin]; rfl)
      (.append hws' (delimited_cons rfl)) (by rw [hbegin]; rfl) (by rw [hstates])
    rw [← getToken_with_states] at hne hloop
    refine ⟨by rw [hbegin]; simp, .endArray, ?_⟩
    rw [loop_value (.array (by rw [hbegin]) hne), hloop, loop_endArray hws' rfl rfl rfl, hbegin]
    rfl
  | @emptyObject ws ws' hws hws' =>
    intro p rest hinput hrest
    have hbegin : p.getToken lib = { p with
        lastToken := .beginObject, input := ws' ++ ([0x7D] ++ rest) } :=
      getToken_text (by simp [hinput]) hws .beginObject (separated_of_not_start (by decide))
    have hend : getToken lib (startObject (p.getToken lib)) = { p with
        input := rest, lastToken := .endObject, refStack := .object [] [] :: p.refStack } := by
      rw [hbegin]
      exact getToken_text rfl hws' .endObject (separated_of_not_start (by decide))
    refine ⟨by rw [hbegin]; simp, .endObject, ?_⟩
    rw [loop_value (.emptyObject (by rw [hbegin]) (by rw [hend])), hend]
    rfl
  | @object ws ws' t ms hws _ hws' ih =>
    intro p rest hinput hrest
    have hbegin : p.getToken lib = { p with
        lastToken := .beginObject, input := t ++ (ws' ++ ([0x7D] ++ rest)) } :=
      getToken_text (by simp [hinput]) hws .beginObject (separated_of_not_start (by decide))
    obtain ⟨p', token, k', hkey, hloop⟩ := ih (startObject (p.getToken lib))
      (ws' ++ ([0x7D] ++ rest)) [] p.refStack (by rw [hbegin]; rfl)
      (.append hws' (delimited_cons rfl)) (by rw [hbegin]; rfl)
    refine ⟨by rw [hbegin]; simp, .endObject, ?_⟩
    rw [loop_value (.object (by rw [hbegin]) hkey), hloop, loop_endObject hws' rfl rfl rfl, hbegin]
    rfl
  | oneElement _ ih =>
    intro p rest frames states hinput hrest hstack hstates
    obtain ⟨hne, token, hloop⟩ := ih p rest hinput hrest
    refine ⟨hne, token, ?_⟩
    rw [hloop]
    simp only [handleValue, hstack]
    rfl
  | @moreElements ws t t' vs v _ hws _ ih ih' =>
    intro p rest frames states hinput hrest hstack hstates
    obtain ⟨hne, token, hloop⟩ := ih p (ws ++ ([0x2C] ++ (t' ++ rest))) frames states
      (by simp [hinput]) (.append hws (delimited_cons rfl)) hstack hstates
    generalize hq : ({ p with
      input := ws ++ ([0x2C] ++ (t' ++ rest)), lastToken := token,
      refStack := .array vs :: frames } : JsonParser F) = q at hloop
    have hsep : q.getToken lib = { q with lastToken := .valueSeparator, input := t' ++ rest } :=
      getToken_text (by rw [← hq]) hws .valueSeparator (separated_of_not_start (by decide))
    obtain ⟨-, token', hloop'⟩ := ih' (q.getToken lib) rest (by rw [hsep]) hrest
    refine ⟨hne, token', ?_⟩
    rw [hloop, loop_evaluate (.nextElement (by rw [← hq]; exact hstates) (by rw [hsep])), hloop',
      hsep, ← hq]
    rfl
  | @oneMember t t' k v hk _ ih =>
    intro p rest k' frames hinput hrest hstack
    have hkey := parseKey_text lib hk (by simpa using hinput) hstack
    obtain ⟨-, token, hloop⟩ := ih { p with
        input := t' ++ rest, lastToken := .nameSeparator, states := false :: p.states
        refStack := .object [] k :: frames } rest rfl hrest
    exact ⟨_, token, k, hkey, hloop⟩
  | @moreMembers ws t t' t'' k ms v _ hws hk _ ih ih' =>
    intro p rest k₀ frames hinput hrest hstack
    obtain ⟨p', token, k', hkey, hloop⟩ := ih p (ws ++ ([0x2C] ++ (t' ++ (t'' ++ rest)))) k₀ frames
      (by simp [hinput]) (.append hws (delimited_cons rfl)) hstack
    generalize hq : ({ p with
      input := ws ++ ([0x2C] ++ (t' ++ (t'' ++ rest))), lastToken := token
      states := false :: p.states,
      refStack := .object ms k' :: frames } : JsonParser F) = q at hloop
    have hsep : q.getToken lib = { q with
        lastToken := .valueSeparator, input := t' ++ (t'' ++ rest) } :=
      getToken_text (by rw [← hq]) hws .valueSeparator (separated_of_not_start (by decide))
    have hkey' : ((q.getToken lib).getToken lib).parseKey lib = .ok { q.getToken lib with
        input := t'' ++ rest, lastToken := .nameSeparator, refStack := .object ms k :: frames } :=
      parseKey_text lib hk (by rw [hsep]) (by rw [hsep, ← hq])
    obtain ⟨-, token', hloop'⟩ := ih' { q.getToken lib with
        input := t'' ++ rest, lastToken := .nameSeparator, refStack := .object ms k :: frames }
      rest rfl hrest
    refine ⟨p', token', k, hkey, ?_⟩
    rw [hloop, loop_evaluate (.nextMember (by rw [← hq]) (by rw [hsep]) hkey'), hloop', hsep, ← hq]
    rfl

theorem loop_text {t rest : Bytes} {v : BasicJson F} (h : Text lib (.value v) t)
    (hrest : Delimited rest) : ∃ token, loop lib
      (.value (getToken lib { input := t ++ rest, lastToken := .endOfInput })) =
        .ok { input := rest, lastToken := token, root := v } := by
  obtain ⟨-, token, hloop⟩ := reads_text h
    { input := t ++ rest, lastToken := .endOfInput } rest rfl hrest
  refine ⟨token, ?_⟩
  rw [hloop, loop_evaluate (.done rfl), loop]
  rfl

theorem parse_of_skipBom {input t ws rest : Bytes} {v : BasicJson F} (h : Text lib (.value v) t)
    (hws : Whitespace ws) (hend : AtEnd rest) (hbom : skipBom input = some (t ++ (ws ++ rest))) :
    parse lib input = .ok v := by
  obtain ⟨token, hloop⟩ := loop_text h (.append hws (delimited_end hend))
  have hinit : init lib input =
      getToken lib { input := t ++ (ws ++ rest), lastToken := .endOfInput } := by
    rw [init, hbom]
  rw [parse, hinit, hloop]
  simp only [getToken, scan_end hws hend]

theorem tokenText_head {text : Bytes} {token : Token F} (h : TokenText lib text token) :
    ∃ b u, text = b :: u ∧ b ≠ 0xEF := by
  cases h with
  | number h =>
    obtain ⟨b, u, rfl, hb⟩ := h.cons
    exact ⟨b, u, rfl, numberStart_ne hb (by decide)⟩
  | _ => exact ⟨_, _, rfl, by decide⟩

theorem skipBom_append {ws text rest : Bytes} (hws : Whitespace ws)
    (h : ∃ b u, text = b :: u ∧ b ≠ 0xEF) :
    skipBom (ws ++ (text ++ rest)) = some (ws ++ (text ++ rest)) := by
  obtain ⟨b, u, rfl, hb⟩ := h
  cases ws with
  | nil => simp [skipBom, hb]
  | cons c ws =>
    have hc : c ≠ 0xEF := by
      rintro rfl
      exact absurd (hws 0xEF (by simp)) (by decide)
    simp [skipBom, hc]

theorem skipBom_text {t rest : Bytes} {v : BasicJson F} (h : Text lib (.value v) t) :
    skipBom (t ++ rest) = some (t ++ rest) := by
  cases h with
  | scalar hws ht _ =>
    rw [List.append_assoc]
    exact skipBom_append hws (tokenText_head ht)
  | emptyArray hws | array hws | emptyObject hws | object hws =>
    rw [List.append_assoc]
    exact skipBom_append hws ⟨_, _, rfl, by decide⟩

theorem parse_document {text : Bytes} {v : BasicJson F} (h : Document lib text v) :
    parse lib text = .ok v := by
  cases h with
  | plain h hws hend => exact parse_of_skipBom h hws hend (skipBom_text h)
  | marked h hws hend => exact parse_of_skipBom h hws hend rfl

theorem init_token {b : UInt8} {token : Token F} (ht : TokenText lib [b] token)
    (hb : ¬ NumberStart b) (hmark : b ≠ 0xEF) (rest : Bytes) :
    init lib (b :: rest) = { input := rest, lastToken := token } := by
  have hbom : skipBom (b :: rest) = some (b :: rest) := by simp [skipBom, hmark]
  have hinput : b :: rest = [] ++ ([b] ++ rest) := rfl
  rw [init, hbom]
  exact getToken_text hinput whitespace_nil ht (separated_of_not_start hb)

/-- A container of which there is no more than the bracket: the zero byte ends the input. -/
theorem parse_cut {b : UInt8} (hb : b = 0x5B ∨ b = 0x7B) {ws : Bytes} (hws : Whitespace ws)
    (rest : Bytes) :
    ∃ message, parse lib (b :: (ws ++ 0 :: rest)) = .error (.parseError message) := by
  have hcut (p : JsonParser F) (hinput : p.input = ws ++ 0 :: rest) :
      p.getToken lib = { p with lastToken := .endOfInput, input := rest } := by
    rw [getToken, hinput, scan_end hws (by simp [AtEnd])]
    rfl
  rcases hb with rfl | rfl
  · have hinit : init lib (0x5B :: (ws ++ 0 :: rest)) = _ :=
      init_token .beginArray (by decide) (by decide) _
    have hturn : ValueTurn lib { input := ws ++ 0 :: rest, lastToken := .beginArray } _ :=
      .array rfl (by rw [hcut _ rfl]; simp)
    rw [hcut _ rfl] at hturn
    rw [parse, hinit, loop_value hturn, loop_value_error rfl]
    exact ⟨_, rfl⟩
  · have hinit : init lib (0x7B :: (ws ++ 0 :: rest)) = _ :=
      init_token .beginObject (by decide) (by decide) _
    obtain ⟨message, hturn⟩ : ∃ message, parseValue lib
        { input := ws ++ 0 :: rest, lastToken := .beginObject } = .error (.parseError message) := by
      simp only [parseValue]
      rw [hcut _ rfl]
      exact ⟨_, rfl⟩
    rw [parse, hinit, loop_value_error hturn]
    exact ⟨message, rfl⟩

/-! ### The parser accepts nothing else -/

inductive ArrayHead (lib : FloatLib F) : Bytes → List (BasicJson F) → Prop
  | empty : ArrayHead lib [] []
  | comma {t ws : Bytes} {vs : List (BasicJson F)} (h : Text lib (.elements vs) t)
      (hws : Whitespace ws) : ArrayHead lib (t ++ (ws ++ [0x2C])) vs

inductive ObjectHead (lib : FloatLib F) : Bytes → List (Bytes × BasicJson F) → Prop
  | empty : ObjectHead lib [] []
  | comma {t ws : Bytes} {ms : List (Bytes × BasicJson F)} (h : Text lib (.members ms) t)
      (hws : Whitespace ws) : ObjectHead lib (t ++ (ws ++ [0x2C])) ms

/-- What was read before a value that the open frames wait for. -/
inductive Opened (lib : FloatLib F) : List (Frame F) → Bytes → Prop
  | root : Opened lib [] []
  | array {frames : List (Frame F)} {pre ws t : Bytes} {vs : List (BasicJson F)}
      (h : Opened lib frames pre) (hws : Whitespace ws) (hhead : ArrayHead lib t vs) :
      Opened lib (.array vs :: frames) (pre ++ (ws ++ 0x5B :: t))
  | object {frames : List (Frame F)} {pre ws t t' k : Bytes} {ms : List (Bytes × BasicJson F)}
      (h : Opened lib frames pre) (hws : Whitespace ws) (hhead : ObjectHead lib t ms)
      (hk : KeyText t' k) :
      Opened lib (.object ms k :: frames) (pre ++ (ws ++ 0x7B :: (t ++ t')))

/-- What was read when a value of the innermost frame, or the whole, is complete. -/
inductive Filled (lib : FloatLib F) : List (Frame F) → BasicJson F → Bytes → Prop
  | root {t : Bytes} {v : BasicJson F} (h : Text lib (.value v) t) : Filled lib [] v t
  | array {frames : List (Frame F)} {pre ws t : Bytes} {vs : List (BasicJson F)} {v : BasicJson F}
      (h : Opened lib frames pre) (hws : Whitespace ws) (ht : Text lib (.elements vs) t) :
      Filled lib (.array vs :: frames) v (pre ++ (ws ++ 0x5B :: t))
  | object {frames : List (Frame F)} {pre ws t k : Bytes} {ms : List (Bytes × BasicJson F)}
      {v : BasicJson F} (h : Opened lib frames pre) (hws : Whitespace ws)
      (ht : Text lib (.members ms) t) :
      Filled lib (.object ms k :: frames) v (pre ++ (ws ++ 0x7B :: t))

theorem ArrayHead.value {t t' : Bytes} {vs : List (BasicJson F)} {v : BasicJson F}
    (h : ArrayHead lib t vs) (hv : Text lib (.value v) t') :
    Text lib (.elements (vs ++ [v])) (t ++ t') := by
  cases h with
  | empty => exact .oneElement hv
  | comma h hws => simpa using Text.moreElements h hws hv

theorem ObjectHead.value {t t' t'' k : Bytes} {ms : List (Bytes × BasicJson F)} {v : BasicJson F}
    (h : ObjectHead lib t ms) (hk : KeyText t' k) (hv : Text lib (.value v) t'') :
    Text lib (.members (OrderedMap.insert k v ms)) (t ++ (t' ++ t'')) := by
  cases h with
  | empty =>
    show Text lib (.members [(k, v)]) (t' ++ t'')
    exact .oneMember hk hv
  | comma h hws => simpa using Text.moreMembers h hws hk hv

theorem filled_handleValue {p : JsonParser F} {pre t : Bytes} {v : BasicJson F}
    (h : Opened lib p.refStack pre) (hv : Text lib (.value v) t) :
    Filled lib (p.handleValue v).refStack (p.handleValue v).root (pre ++ t) := by
  generalize hstack : p.refStack = stack at h
  cases h with
  | root =>
    simp only [handleValue, hstack]
    exact .root hv
  | array h hws hhead =>
    simp only [handleValue, hstack]
    simpa using Filled.array h hws (hhead.value hv)
  | object h hws hhead hk =>
    simp only [handleValue, hstack]
    simpa using Filled.object h hws (hhead.value hk hv)

def isArray : Frame F → Bool
  | .array _ => true
  | .object _ _ => false

/-- What holds of the whole text at every turn. -/
def Consistent (lib : FloatLib F) (whole : Bytes) : Turn F → Prop
  | .value p => p.states = p.refStack.map isArray ∧ ∃ q pre, p = getToken lib q ∧
      whole = pre ++ q.input ∧ Opened lib q.refStack pre
  | .evaluate p => p.states = p.refStack.map isArray ∧ ∃ pre,
      whole = pre ++ p.input ∧ Filled lib p.refStack p.root pre
  | .done p => ∃ pre, whole = pre ++ p.input ∧ Text lib (.value p.root) pre

theorem handleValue_states (p : JsonParser F) (v : BasicJson F) :
    (p.handleValue v).states = p.states := by
  rcases hstack : p.refStack with _ | ⟨_ | _, frames⟩ <;> simp [handleValue, hstack]

theorem handleValue_isArray (p : JsonParser F) (v : BasicJson F) :
    (p.handleValue v).refStack.map isArray = p.refStack.map isArray := by
  rcases hstack : p.refStack with _ | ⟨_ | _, frames⟩ <;> simp [handleValue, hstack, isArray]

theorem getToken_punctuation {p : JsonParser F} {token : Token F} {b : UInt8}
    (hlast : (p.getToken lib).lastToken = token) (hb : punctuation token = some b) :
    ∃ ws, Whitespace ws ∧ p.input = ws ++ b :: (p.getToken lib).input := by
  have hstop : token.isStop = false := by cases token <;> first | rfl | cases hb
  obtain ⟨ws, text, hws, hinput, ht⟩ := getToken_sound hlast hstop
  obtain rfl := ht.punctuation hb
  exact ⟨ws, hws, hinput⟩

theorem parseKey_sound {p p' : JsonParser F} {k₀ : Bytes} {ms : List (Bytes × BasicJson F)}
    {frames : List (Frame F)} (h : (p.getToken lib).parseKey lib = .ok p')
    (hstack : p.refStack = .object ms k₀ :: frames) :
    ∃ t k, KeyText t k ∧ p.input = t ++ p'.input ∧ p'.refStack = .object ms k :: frames ∧
      p'.states = p.states := by
  obtain ⟨s, hs, rfl, hsep⟩ := parseKey_eq_ok.mp h
  obtain ⟨ws, text, hws, hinput, ht⟩ := getToken_sound hs rfl
  obtain ⟨text, cs, rfl, htext, rfl⟩ := ht.valueString
  obtain ⟨ws', hws', hinput'⟩ := getToken_punctuation hsep rfl
  rw [key_input] at hinput'
  refine ⟨_, _, .intro hws htext hws', by simp [hinput, hinput'], ?_, ?_⟩
  · rw [getToken_refStack]
    simp [key, getToken_refStack, hstack]
  · rw [getToken_states, key_states, getToken_states]

theorem consistent_handleValue {whole pre t : Bytes} {p : JsonParser F} {v : BasicJson F}
    (hstates : p.states = p.refStack.map isArray) (hopen : Opened lib p.refStack pre)
    (hv : Text lib (.value v) t) (hwhole : whole = pre ++ (t ++ p.input)) :
    Consistent lib whole (.evaluate (p.handleValue v)) := by
  refine ⟨?_, pre ++ t, ?_, filled_handleValue hopen hv⟩
  · rw [handleValue_states, handleValue_isArray, hstates]
  · rw [hwhole, handleValue_input, List.append_assoc]

theorem endContainer_eq {p : JsonParser F} {frame : Frame F} {frames : List (Frame F)}
    (hstack : p.refStack = frame :: frames) :
    p.endContainer = handleValue { p with refStack := frames } frame.value := by
  simp only [endContainer, hstack]

theorem consistent_value {whole : Bytes} (p : JsonParser F) (t : Turn F)
    (h : Consistent lib whole (.value p)) (ht : ValueTurn lib p t) : Consistent lib whole t := by
  obtain ⟨hstates, q, pre, hp, hwhole, hopen⟩ := h
  have hstack : p.refStack = q.refStack := by rw [hp, getToken_refStack]
  rw [← hstack] at hopen
  cases ht with
  | emptyObject hlast hend =>
    obtain ⟨ws, hws, hinput⟩ := getToken_punctuation (hp ▸ hlast) rfl
    obtain ⟨ws', hws', hinput'⟩ := getToken_punctuation hend rfl
    rw [← hp] at hinput
    rw [JsonParser.endObject, endContainer_eq (getToken_refStack p.startObject)]
    refine consistent_handleValue ?_ hopen (.emptyObject hws hws') ?_
    · exact (getToken_states p.startObject).trans hstates
    · rw [hwhole, hinput, show p.input = p.startObject.input from rfl, hinput']
      simp
  | @object p' hlast hkey =>
    obtain ⟨ws, hws, hinput⟩ := getToken_punctuation (hp ▸ hlast) rfl
    rw [← hp] at hinput
    obtain ⟨t, k, hk, hinput', hstack', hstates'⟩ := parseKey_sound hkey rfl
    refine ⟨?_, { p' with states := false :: p'.states },
      pre ++ (ws ++ 0x7B :: ([] ++ t)), rfl, ?_, ?_⟩
    · rw [getToken_states, getToken_refStack, hstack', hstates']
      simp [startObject, hstates, isArray]
    · rw [hwhole, hinput, show p.input = p.startObject.input from rfl, hinput']
      simp
    · rw [hstack']
      exact .object hopen hws .empty hk
  | emptyArray hlast hend =>
    obtain ⟨ws, hws, hinput⟩ := getToken_punctuation (hp ▸ hlast) rfl
    obtain ⟨ws', hws', hinput'⟩ := getToken_punctuation hend rfl
    rw [← hp] at hinput
    rw [JsonParser.endArray, endContainer_eq (getToken_refStack p.startArray)]
    refine consistent_handleValue ?_ hopen (.emptyArray hws hws') ?_
    · exact (getToken_states p.startArray).trans hstates
    · rw [hwhole, hinput, show p.input = p.startArray.input from rfl, hinput']
      simp
  | array hlast hend =>
    obtain ⟨ws, hws, hinput⟩ := getToken_punctuation (hp ▸ hlast) rfl
    rw [← hp] at hinput
    refine ⟨?_, { p.startArray with states := true :: p.states }, _,
      getToken_with_states _ _, ?_, .array hopen hws .empty⟩
    · simp [getToken_refStack, startArray, hstates, isArray]
    · rw [hwhole, hinput]
      simp [startArray]
  | @scalar v hv =>
    have hstop : p.lastToken.isStop = false := by
      cases hlast : p.lastToken <;> first | rfl | simp [hlast, Token.scalar] at hv
    have hlast : (q.getToken lib).lastToken = p.lastToken := by rw [hp]
    obtain ⟨ws, text, hws, hinput, htext⟩ := getToken_sound hlast hstop
    rw [← hp] at hinput
    exact consistent_handleValue hstates hopen (.scalar hws htext hv) (by simp [hwhole, hinput])

theorem consistent_evaluate {whole : Bytes} (p : JsonParser F) (t : Turn F)
    (h : Consistent lib whole (.evaluate p)) (ht : EvaluateTurn lib p t) :
    Consistent lib whole t := by
  obtain ⟨hstates, pre, hwhole, hfilled⟩ := h
  generalize hstack : p.refStack = stack at hfilled hstates
  cases hfilled with
  | root hv =>
    cases ht with
    | done => exact ⟨pre, hwhole, hv⟩
    | nextElement h | endArray h | nextMember h | endObject h => cases h.symm.trans hstates
  | @array frames pre ws t vs _ hopen hws htext =>
    have hall : p.states = true :: frames.map isArray := hstates
    cases ht with
    | done h => cases h.symm.trans hall
    | nextMember h | endObject h => cases h.symm.trans hall
    | nextElement h hsep =>
      obtain ⟨ws', hws', hinput⟩ := getToken_punctuation hsep rfl
      refine ⟨?_, p.getToken lib, pre ++ (ws ++ 0x5B :: (t ++ (ws' ++ [0x2C]))), rfl, ?_, ?_⟩
      · simp [getToken_states, getToken_refStack, hstack, hstates]
      · simp [hwhole, hinput]
      · rw [getToken_refStack, hstack]
        exact .array hopen hws (.comma htext hws')
    | @endArray states h hend =>
      obtain ⟨ws', hws', hinput⟩ := getToken_punctuation hend rfl
      obtain rfl : states = frames.map isArray := (List.cons.inj (h.symm.trans hall)).2
      rw [JsonParser.endArray, endContainer_eq ((getToken_refStack p).trans hstack),
        handleValue_with_states]
      exact consistent_handleValue rfl hopen (.array hws htext hws') (by simp [hwhole, hinput])
  | @object frames pre ws t k ms _ hopen hws htext =>
    have hall : p.states = false :: frames.map isArray := hstates
    cases ht with
    | done h => cases h.symm.trans hall
    | nextElement h | endArray h => cases h.symm.trans hall
    | @nextMember states p' h hsep hkey =>
      obtain ⟨ws', hws', hinput⟩ := getToken_punctuation hsep rfl
      obtain ⟨t', k', hk, hinput', hstack', hstates'⟩ :=
        parseKey_sound hkey ((getToken_refStack p).trans hstack)
      refine ⟨?_, p', pre ++ (ws ++ 0x7B :: (t ++ (ws' ++ [0x2C]) ++ t')), rfl, ?_, ?_⟩
      · simp [getToken_states, getToken_refStack, hstack', hstates', hall, isArray]
      · simp [hwhole, hinput, hinput']
      · rw [hstack']
        exact .object hopen hws (.comma htext hws') hk
    | @endObject states h hend =>
      obtain ⟨ws', hws', hinput⟩ := getToken_punctuation hend rfl
      obtain rfl : states = frames.map isArray := (List.cons.inj (h.symm.trans hall)).2
      rw [JsonParser.endObject, endContainer_eq ((getToken_refStack p).trans hstack),
        handleValue_with_states]
      exact consistent_handleValue rfl hopen (.object hws htext hws') (by simp [hwhole, hinput])

theorem skipBom_sound {input rest : Bytes} (h : skipBom input = some rest) :
    input = rest ∨ input = 0xEF :: 0xBB :: 0xBF :: rest := by
  unfold skipBom at h
  split at h
  · exact .inr (by rw [Option.some.inj h])
  · cases h
  · exact .inl (Option.some.inj h)

theorem loop_sound {input : Bytes} {p : JsonParser F}
    (h : loop lib (.value (getToken lib { input := input, lastToken := .endOfInput })) = .ok p) :
    ∃ t, input = t ++ p.input ∧ Text lib (.value p.root) t := by
  have hstart : Consistent lib input
      (.value (getToken lib { input := input, lastToken := .endOfInput })) :=
    ⟨by rw [getToken_states, getToken_refStack]; rfl, _, [], rfl, rfl,
      .root⟩
  exact loop_induction consistent_value consistent_evaluate hstart h

theorem getToken_end {p : JsonParser F} (hlast : (p.getToken lib).lastToken = .endOfInput) :
    (p.getToken lib).root = p.root ∧
      ∃ ws rest, Whitespace ws ∧ p.input = ws ++ rest ∧ AtEnd rest := by
  unfold getToken at hlast ⊢
  split at hlast
  · rename_i token input hscan
    obtain rfl : token = .endOfInput := hlast
    obtain ⟨ws, hws, ⟨-, rest, hinput, hend, -⟩ | ⟨text, -, ht, -⟩⟩ := scan_sound hscan
    · exact ⟨rfl, ws, rest, hws, hinput, hend⟩
    · generalize htoken : Token.endOfInput = token at ht
      cases ht with
      | @number _ type =>
        obtain ⟨u, hu⟩ | ⟨i, hi⟩ | ⟨x, hx⟩ := convert_cases lib text type
        · cases htoken.trans hu
        · cases htoken.trans hi
        · cases htoken.trans hx
      | _ => cases htoken
  · cases hlast

theorem document_of_parse {text : Bytes} {v : BasicJson F} (h : parse lib text = .ok v) :
    Document lib text v := by
  unfold parse at h
  split at h
  · cases h
  · rename_i p hloop
    simp only at h
    split at h
    · rename_i hend
      obtain rfl := Except.ok.inj h
      obtain ⟨hroot, ws, rest, hws, hinput, hrest⟩ := getToken_end hend
      rw [hroot]
      cases hbom : skipBom text with
      | none =>
        -- the first token is an error, and the loop ends with it
        have hinit : (init lib text).parseValue lib =
            (init lib text).unexpected none "value" := by
          simp [init, hbom, parseValue]
        rw [loop] at hloop
        split at hloop
        · cases hloop
        · rename_i hturn
          cases hturn.symm.trans hinit
      | some input =>
        rw [init, hbom] at hloop
        obtain ⟨t, rfl, htext⟩ := loop_sound hloop
        rw [hinput] at hbom
        obtain rfl | rfl := skipBom_sound hbom
        · exact .plain htext hws hrest
        · exact .marked htext hws hrest
    · cases h

/-! ### What the values of texts are like -/

/-- What holds of everything that a text can stand for. -/
def Sound (lib : FloatLib F) : Sym F → Prop
  | .value v => v.WellFormed ∧ v.Readable lib
  | .elements vs => ∀ v ∈ vs, v.WellFormed ∧ v.Readable lib
  | .members ms => OrderedMap.Sorted ms ∧ (∀ k ∈ OrderedMap.keys ms, Utf8.Valid k) ∧
      ∀ e ∈ ms, e.2.WellFormed ∧ e.2.Readable lib

theorem strtoll_le {text : Bytes} {i : Int64} (h : strtoll text = some i) : i.toInt ≤ 0 := by
  simp only [strtoll] at h
  split_ifs at h with hle
  obtain rfl := Option.some.inj h
  rw [Int64.toInt_ofInt_of_le (by omega) (by omega)]
  omega

theorem keyText_valid {t k : Bytes} (h : KeyText t k) : Utf8.Valid k := by
  cases h with
  | intro => exact Utf8.valid_encode _

theorem scalar_sound {text : Bytes} {token : Token F} {v : BasicJson F}
    (ht : TokenText lib text token) (hv : token.scalar lib = some v) :
    v.WellFormed ∧ v.Readable lib := by
  have hleaf (hc : v.children = []) (hw : v.WellFormedHere) (hr : v.ReadableHere lib) :
      v.WellFormed ∧ v.Readable lib :=
    ⟨.intro hw (by simp [hc]), .intro hr (by simp [hc])⟩
  cases ht with
  | literalTrue | literalFalse | literalNull =>
    obtain rfl := Option.some.inj hv
    exact hleaf rfl trivial trivial
  | @string text cs h =>
    obtain rfl := Option.some.inj hv
    exact hleaf rfl (Utf8.valid_encode cs) trivial
  | @number text type _ =>
    have hfloat {x : F} (hx : (Token.valueFloat x).scalar lib = some v) :
        v.WellFormed ∧ v.Readable lib := by
      simp only [Token.scalar] at hx
      split_ifs at hx with hfinite
      obtain rfl := Option.some.inj hx
      exact hleaf rfl trivial hfinite
    cases type with
    | unsigned =>
      cases hu : strtoull text with
      | none => exact hfloat (by simpa [convert, hu] using hv)
      | some u =>
        simp only [convert, hu, Token.scalar, Option.some.injEq] at hv
        subst hv
        exact hleaf rfl trivial trivial
    | integer =>
      cases hi : strtoll text with
      | none => exact hfloat (by simpa [convert, hi] using hv)
      | some i =>
        simp only [convert, hi, Token.scalar, Option.some.injEq] at hv
        subst hv
        exact hleaf rfl trivial (strtoll_le hi)
    | float => exact hfloat hv
  | _ => cases hv

theorem sound_text {s : Sym F} {t : Bytes} (h : Text lib s t) : Sound lib s := by
  induction h with
  | scalar _ ht hv => exact scalar_sound ht hv
  | emptyArray =>
    exact ⟨.intro trivial (by simp [BasicJson.children]),
      .intro trivial (by simp [BasicJson.children])⟩
  | array _ _ _ ih =>
    exact ⟨.intro trivial fun v hv => (ih v hv).1, .intro trivial fun v hv => (ih v hv).2⟩
  | emptyObject =>
    refine ⟨.intro ⟨?_, ?_⟩ (by simp [BasicJson.children]),
      .intro trivial (by simp [BasicJson.children])⟩
    · exact List.Pairwise.nil
    · simp
  | object _ _ _ ih =>
    obtain ⟨hsorted, hkeys, hvalues⟩ := ih
    refine ⟨.intro ⟨hsorted, hkeys⟩ ?_, .intro trivial ?_⟩
    · intro v hv
      obtain ⟨e, he, rfl⟩ := List.mem_map.mp hv
      exact (hvalues e he).1
    · intro v hv
      obtain ⟨e, he, rfl⟩ := List.mem_map.mp hv
      exact (hvalues e he).2
  | oneElement _ ih => simpa [Sound] using ih
  | moreElements _ _ _ ih ih' =>
    intro v hv
    rcases List.mem_append.mp hv with hv | hv
    · exact ih v hv
    · obtain rfl := List.mem_singleton.mp hv
      exact ih'
  | oneMember hk _ ih =>
    refine ⟨?_, ?_, ?_⟩
    · exact List.pairwise_singleton _ _
    · simpa using keyText_valid hk
    · intro e he
      obtain rfl := List.mem_singleton.mp he
      exact ih
  | moreMembers _ _ hk _ ih ih' =>
    obtain ⟨hsorted, hkeys, hvalues⟩ := ih
    refine ⟨OrderedMap.sorted_insert hsorted, ?_, ?_⟩
    · intro k hk'
      obtain ⟨e, he, rfl⟩ := List.mem_map.mp hk'
      rcases OrderedMap.mem_insert he with rfl | he
      · exact keyText_valid hk
      · exact hkeys _ (List.mem_map_of_mem he)
    · intro e he
      rcases OrderedMap.mem_insert he with rfl | he
      · exact ih'
      · exact hvalues e he

theorem document_text {text : Bytes} {v : BasicJson F} (h : Document lib text v) :
    ∃ t, Text lib (.value v) t := by
  cases h with
  | plain h | marked h => exact ⟨_, h⟩

theorem parse_sound {text : Bytes} {v : BasicJson F} (h : parse lib text = .ok v) :
    v.WellFormed ∧ v.Readable lib := by
  obtain ⟨t, ht⟩ := document_text (document_of_parse h)
  exact sound_text ht

/-! ### Texts are UTF-8 -/

theorem hexText_valid {ds : Bytes} {n : ℕ} (h : HexText ds n) : Utf8.Valid ds := by
  have hascii {b : UInt8} {d : ℕ} (hb : hexDigit b = some d) : b.toNat < 0x80 := by
    simp only [hexDigit, UInt8.le_iff_toNat_le, UInt8.reduceToNat] at hb
    split_ifs at hb <;> omega
  cases h with
  | intro ha hb hc hd =>
    exact Utf8.valid_ascii (by simp [hascii ha, hascii hb, hascii hc, hascii hd])

theorem charText_valid {text : Bytes} {c : Char} (h : CharText text c) : Utf8.Valid text := by
  have hunicode : Utf8.Valid [0x5C, 0x75] := rfl
  cases h with
  | plain => exact Utf8.run_char c
  | @short b r _ h =>
    have hb : b.toNat < 0x80 := by
      simp only [escaped] at h
      split_ifs at h with h1 h2 h3 h4 h5 h6
      · rcases h1 with rfl | rfl | rfl <;> decide
      all_goals subst b; decide
    exact Utf8.valid_ascii (by simp [hb])
  | unicode h => exact hunicode.append (hexText_valid h)
  | pair hds hes =>
    exact hunicode.append ((hexText_valid hds).append (hunicode.append (hexText_valid hes)))

theorem stringText_valid {text : Bytes} {cs : List Char} (h : StringText text cs) :
    Utf8.Valid text := by
  induction h with
  | nil => rfl
  | cons h _ ih => exact (charText_valid h).append ih

theorem numberText_valid {text : Bytes} {type : NumberType} (h : NumberText text type) :
    Utf8.Valid text := by
  have hascii (b : UInt8) (hb : charClass b ≠ .anything) : b.toNat < 0x80 := by
    have hall : ∀ n : Fin 256, charClass (UInt8.ofNat n) ≠ .anything → n.val < 0x80 := by
      decide +kernel
    have hb' := hall ⟨b.toNat, b.toNat_lt⟩
    rw [UInt8.ofNat_toNat] at hb'
    exact hb' hb
  exact Utf8.valid_ascii fun b hb => hascii b (numberText_classes h b hb)

theorem whitespace_valid {ws : Bytes} (h : Whitespace ws) : Utf8.Valid ws := by
  refine Utf8.valid_ascii fun b hb => ?_
  have hws := h b hb
  simp only [isWhitespace, Bool.or_eq_true, decide_eq_true_eq] at hws
  obtain ((rfl | rfl) | rfl) | rfl := hws <;> decide

theorem quoted_valid {text : Bytes} {cs : List Char} (h : StringText text cs) :
    Utf8.Valid (0x22 :: (text ++ [0x22])) := by
  have hquote : Utf8.Valid [0x22] := rfl
  exact hquote.append ((stringText_valid h).append hquote)

theorem tokenText_valid {text : Bytes} {token : Token F} (h : TokenText lib text token) :
    Utf8.Valid text := by
  cases h with
  | string h => exact quoted_valid h
  | number h => exact numberText_valid h
  | beginArray | endArray | beginObject | endObject | nameSeparator | valueSeparator | literalTrue
  | literalFalse | literalNull => rfl

theorem keyText_utf8 {text k : Bytes} (h : KeyText text k) : Utf8.Valid text := by
  cases h with
  | intro hws h hws' =>
    have hcolon : Utf8.Valid [0x3A] := rfl
    exact (whitespace_valid hws).append
      ((quoted_valid h).append ((whitespace_valid hws').append hcolon))

theorem text_utf8 {sym : Sym F} {t : Bytes} (h : Text lib sym t) : Utf8.Valid t := by
  have hone (b : UInt8) (hb : b.toNat < 0x80) : Utf8.Valid [b] :=
    Utf8.valid_ascii (by simpa using hb)
  induction h with
  | scalar hws ht => exact (whitespace_valid hws).append (tokenText_valid ht)
  | emptyArray hws hws' =>
    exact (whitespace_valid hws).append ((hone 0x5B (by decide)).append
      ((whitespace_valid hws').append (hone 0x5D (by decide))))
  | emptyObject hws hws' =>
    exact (whitespace_valid hws).append ((hone 0x7B (by decide)).append
      ((whitespace_valid hws').append (hone 0x7D (by decide))))
  | array hws _ hws' ih =>
    exact (whitespace_valid hws).append ((hone 0x5B (by decide)).append
      (ih.append ((whitespace_valid hws').append (hone 0x5D (by decide)))))
  | object hws _ hws' ih =>
    exact (whitespace_valid hws).append ((hone 0x7B (by decide)).append
      (ih.append ((whitespace_valid hws').append (hone 0x7D (by decide)))))
  | oneElement _ ih => exact ih
  | moreElements _ hws _ ih ih' =>
    exact ih.append ((whitespace_valid hws).append ((hone 0x2C (by decide)).append ih'))
  | oneMember hk _ ih => exact (keyText_utf8 hk).append ih
  | moreMembers _ hws hk _ ih ih' =>
    exact ih.append ((whitespace_valid hws).append ((hone 0x2C (by decide)).append
      ((keyText_utf8 hk).append ih')))

/-- The parser accepts exactly the documents of the grammar, with the values they have. -/
theorem parse_eq_ok {text : Bytes} {v : BasicJson F} :
    parse lib text = .ok v ↔ Document lib text v := by
  constructor
  · exact document_of_parse
  · exact parse_document

/-- What was read of an accepted text is UTF-8 throughout. -/
theorem parse_utf8 (text : Bytes) (v : BasicJson F) (h : parse lib text = .ok v) :
    ∃ read rest, text = read ++ rest ∧ Utf8.Valid read ∧ AtEnd rest := by
  have hmark : Utf8.Valid [0xEF, 0xBB, 0xBF] := rfl
  cases document_of_parse h with
  | @plain t ws rest _ ht hws hend =>
    exact ⟨t ++ ws, rest, by simp, (text_utf8 ht).append (whitespace_valid hws), hend⟩
  | @marked t ws rest _ ht hws hend =>
    exact ⟨[0xEF, 0xBB, 0xBF] ++ (t ++ ws), rest, by simp,
      hmark.append ((text_utf8 ht).append (whitespace_valid hws)), hend⟩

theorem parse_utf8_string : ∃ read rest : Bytes,
    [0x22, 0xC3, 0xA9, 0x22, 0x20, 0x00, 0xFF] = read ++ rest ∧ Utf8.Valid read ∧ AtEnd rest :=
  @parse_utf8 Unit ⟨fun _ => (), fun _ => true, fun _ => []⟩
    [0x22, 0xC3, 0xA9, 0x22, 0x20, 0x00, 0xFF] (.string [0xC3, 0xA9]) (by with_unfolding_all rfl)

end WebrtcNativeDemo.JsonParser
