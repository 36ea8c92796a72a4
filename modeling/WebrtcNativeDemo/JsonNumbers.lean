import WebrtcNativeDemo.JsonStrings

/-!
# Numbers in a JSON text

What `scan_number` reads, against the grammar of a number (RFC 8259, section 6): the
longest piece that can be one. Its automaton has one state for each label of the
function.
-/

namespace WebrtcNativeDemo.Lexer

/-! ### The grammar -/

def IsDigit (b : UInt8) : Prop := 0x30 ≤ b ∧ b ≤ 0x39

instance (b : UInt8) : Decidable (IsDigit b) := inferInstanceAs (Decidable (_ ∧ _))

structure Digits (ds : Bytes) : Prop where
  nonempty : ds ≠ []
  digits : ∀ d ∈ ds, IsDigit d

/-- No zero comes before another digit. -/
structure IntText (ds : Bytes) : Prop extends Digits ds where
  zero : ds.head? = some 0x30 → ds = [0x30]

inductive FracText : Bytes → Prop
  | none : FracText []
  | some {ds : Bytes} (h : Digits ds) : FracText (0x2E :: ds)

inductive SignText : Bytes → Prop
  | none : SignText []
  | plus : SignText [0x2B]
  | minus : SignText [0x2D]

inductive ExpText : Bytes → Prop
  | none : ExpText []
  | some {e : UInt8} {sign ds : Bytes} (he : e = 0x65 ∨ e = 0x45) (hs : SignText sign)
      (h : Digits ds) : ExpText (e :: (sign ++ ds))

def typeOf (type : NumberType) (u : Bytes) : NumberType := if u = [] then type else .float

inductive NumberText : Bytes → NumberType → Prop
  | unsigned {int frac exp : Bytes} (hi : IntText int) (hf : FracText frac) (he : ExpText exp) :
      NumberText (int ++ (frac ++ exp)) (typeOf .unsigned (frac ++ exp))
  | integer {int frac exp : Bytes} (hi : IntText int) (hf : FracText frac) (he : ExpText exp) :
      NumberText (0x2D :: (int ++ (frac ++ exp))) (typeOf .integer (frac ++ exp))

/-! ### The classes of the bytes -/

theorem charClass_digit {b : UInt8} :
    (charClass b = .zero ∨ charClass b = .oneToNine) ↔ IsDigit b := by
  have hall : ∀ n : Fin 256, (charClass (UInt8.ofNat n) = .zero ∨
      charClass (UInt8.ofNat n) = .oneToNine) ↔ IsDigit (UInt8.ofNat n) := by decide +kernel
  have hb := hall ⟨b.toNat, b.toNat_lt⟩
  rwa [UInt8.ofNat_toNat] at hb

theorem charClass_zero {b : UInt8} : charClass b = .zero ↔ b = 0x30 := by
  simp only [charClass]
  split_ifs with h1 h2 h3 h4 h5 h6 <;> simp [*]

theorem charClass_e {b : UInt8} : charClass b = .e ↔ b = 0x65 ∨ b = 0x45 := by
  have hall : ∀ n : Fin 256, charClass (UInt8.ofNat n) = .e ↔
      UInt8.ofNat n = 0x65 ∨ UInt8.ofNat n = 0x45 := by decide +kernel
  have hb := hall ⟨b.toNat, b.toNat_lt⟩
  rwa [UInt8.ofNat_toNat] at hb

theorem charClass_other {b : UInt8} :
    (charClass b = .plus ↔ b = 0x2B) ∧ (charClass b = .minus ↔ b = 0x2D) ∧
      (charClass b = .dot ↔ b = 0x2E) := by
  have hall : ∀ n : Fin 256, (charClass (UInt8.ofNat n) = .plus ↔ UInt8.ofNat n = 0x2B) ∧
      (charClass (UInt8.ofNat n) = .minus ↔ UInt8.ofNat n = 0x2D) ∧
      (charClass (UInt8.ofNat n) = .dot ↔ UInt8.ofNat n = 0x2E) := by decide +kernel
  have hb := hall ⟨b.toNat, b.toNat_lt⟩
  rwa [UInt8.ofNat_toNat] at hb

/-! ### The automaton -/

def NumberState.IsFinal (s : NumberState) : Prop := s.goto .anything = .done

/-- The automaton reads all of `u` from the label of `s` on and may end there. -/
def Accepts (s : NumberState) (type : NumberType) : Bytes → NumberType → Prop
  | [], type' => s.IsFinal ∧ type' = s.numberType type
  | b :: u, type' =>
    ∃ s', s.goto (charClass b) = .state s' ∧ Accepts s' (s.numberType type) u type'

theorem NumberState.IsFinal.goto {s : NumberState} (h : s.IsFinal) (c : CharClass) :
    s.goto c = .done ∨ ∃ s', s.goto c = .state s' := by
  cases s with
  | minus | decimal1 | exponent | sign => cases h
  | zero | any1 | decimal2 | any2 => cases c <;> simp [NumberState.goto]

theorem NumberState.isFinal_of_goto {s : NumberState} {c : CharClass} (h : s.goto c = .done) :
    s.IsFinal := by
  cases s <;> first | rfl | (cases c <;> cases h)

/-- No state is a dead end. -/
theorem exists_accepts (s : NumberState) (type : NumberType) :
    ∃ u type', Accepts s type u type' := by
  cases s with
  | zero | any1 | decimal2 | any2 => exact ⟨[], type, rfl, rfl⟩
  | minus => exact ⟨[0x30], .integer, .zero, rfl, rfl, rfl⟩
  | decimal1 => exact ⟨[0x30], .float, .decimal2, rfl, rfl, rfl⟩
  | exponent => exact ⟨[0x30], .float, .any2, rfl, rfl, rfl⟩
  | sign => exact ⟨[0x30], type, .any2, rfl, rfl, rfl⟩

/-- `u` is read, and with the next byte it no longer begins anything that could be. -/
def Munch (s : NumberState) (type : NumberType) (u rest : Bytes) (type' : NumberType) : Prop :=
  Accepts s type u type' ∧ ∀ b ∈ rest.head?, ∀ w type'', ¬ Accepts s type (u ++ b :: w) type''

theorem munch_cons {s s' : NumberState} {type type' : NumberType} {b : UInt8} {u rest : Bytes}
    (hg : s.goto (charClass b) = .state s') :
    Munch s type (b :: u) rest type' ↔ Munch s' (s.numberType type) u rest type' := by
  have hacc (v : Bytes) (type'' : NumberType) :
      Accepts s type (b :: v) type'' ↔ Accepts s' (s.numberType type) v type'' := by
    simp only [Accepts, hg, Goto.state.injEq]
    exact ⟨fun ⟨_, heq, h⟩ => heq ▸ h, fun h => ⟨s', rfl, h⟩⟩
  simp only [Munch, List.cons_append, hacc]

theorem scanNumberFrom_eq_ok {s : NumberState} {type type' : NumberType}
    {buffer buffer' input rest : Bytes} :
    scanNumberFrom s type buffer input = .ok (type', buffer', rest) ↔
      ∃ u, input = u ++ rest ∧ buffer' = buffer ++ u ∧ Munch s type u rest type' := by
  induction input generalizing s type buffer with
  | nil =>
    simp only [scanNumberFrom]
    constructor
    · intro h
      cases hg : s.goto .anything with
      | error message =>
        rw [hg] at h
        cases h
      | done =>
        rw [hg] at h
        cases h
        exact ⟨[], rfl, by simp, ⟨hg, rfl⟩, by simp⟩
      | state s' => cases s <;> cases hg
    · rintro ⟨u, hu, rfl, hm⟩
      obtain ⟨rfl, rfl⟩ := List.append_eq_nil_iff.mp hu.symm
      have hfinal : s.goto .anything = .done := hm.1.1
      simp [hfinal, hm.1.2]
  | cons b input ih =>
    simp only [scanNumberFrom]
    cases hg : s.goto (charClass b) with
    | error message =>
      constructor
      · intro h
        cases h
      · rintro ⟨u, hu, rfl, hm⟩
        cases u with
        | nil =>
          obtain hdone | ⟨s', hs'⟩ := NumberState.IsFinal.goto hm.1.1 (charClass b)
          · cases hg.symm.trans hdone
          · cases hg.symm.trans hs'
        | cons c u =>
          obtain ⟨rfl, rfl⟩ := List.cons.inj hu
          obtain ⟨s', hs', -⟩ := hm.1
          cases hg.symm.trans hs'
    | done =>
      constructor
      · intro h
        cases h
        refine ⟨[], rfl, by simp, ⟨NumberState.isFinal_of_goto hg, rfl⟩, ?_⟩
        rintro c hc w type'' ⟨s', hs', -⟩
        obtain rfl : b = c := by simpa using hc
        cases hg.symm.trans hs'
      · rintro ⟨u, hu, rfl, hm⟩
        cases u with
        | nil =>
          obtain rfl : b :: input = rest := hu
          simp [hm.1.2]
        | cons c u =>
          obtain ⟨rfl, rfl⟩ := List.cons.inj hu
          obtain ⟨s', hs', -⟩ := hm.1
          cases hg.symm.trans hs'
    | state s' =>
      constructor
      · intro h
        obtain ⟨u, rfl, rfl, hm⟩ := ih.mp h
        exact ⟨b :: u, rfl, by simp, (munch_cons hg).mpr hm⟩
      · rintro ⟨u, hu, rfl, hm⟩
        cases u with
        | nil =>
          obtain rfl : b :: input = rest := hu
          obtain ⟨w, type'', hw⟩ := exists_accepts s' (s.numberType type)
          exact absurd ⟨s', hg, hw⟩ (hm.2 b rfl w type'')
        | cons c u =>
          obtain ⟨rfl, rfl⟩ := List.cons.inj hu
          exact ih.mpr ⟨u, rfl, by simp, (munch_cons hg).mp hm⟩

/-! ### What each state may still read -/

theorem accepts_any2 {type type' : NumberType} {u : Bytes} :
    Accepts .any2 type u type' ↔ (∀ d ∈ u, IsDigit d) ∧ type' = type := by
  induction u with
  | nil => simp [Accepts, NumberState.IsFinal, NumberState.goto, NumberState.numberType]
  | cons b u ih =>
    rw [List.forall_mem_cons, and_assoc, ← ih, ← charClass_digit]
    simp only [Accepts, NumberState.numberType]
    cases charClass b <;> simp [NumberState.goto]

theorem accepts_sign {type type' : NumberType} {u : Bytes} :
    Accepts .sign type u type' ↔ Digits u ∧ type' = type := by
  cases u with
  | nil =>
    constructor
    · rintro ⟨h, -⟩
      cases h
    · rintro ⟨h, -⟩
      exact absurd rfl h.nonempty
  | cons b u =>
    have hstep : Accepts .sign type (b :: u) type' ↔ IsDigit b ∧ Accepts .any2 type u type' := by
      rw [← charClass_digit]
      simp only [Accepts, NumberState.numberType]
      cases charClass b <;> simp [NumberState.goto]
    rw [hstep, accepts_any2]
    constructor
    · rintro ⟨hb, hu, rfl⟩
      exact ⟨⟨by simp, List.forall_mem_cons.mpr ⟨hb, hu⟩⟩, rfl⟩
    · rintro ⟨h, rfl⟩
      obtain ⟨hb, hu⟩ := List.forall_mem_cons.mp h.digits
      exact ⟨hb, hu, rfl⟩

theorem accepts_exponent {type type' : NumberType} {u : Bytes} :
    Accepts .exponent type u type' ↔
      (∃ sign ds, u = sign ++ ds ∧ SignText sign ∧ Digits ds) ∧ type' = .float := by
  cases u with
  | nil =>
    constructor
    · rintro ⟨h, -⟩
      cases h
    · rintro ⟨⟨sign, ds, hu, -, hds⟩, -⟩
      exact absurd (List.append_eq_nil_iff.mp hu.symm).2 hds.nonempty
  | cons b u =>
    have hstep : Accepts .exponent type (b :: u) type' ↔
        (b = 0x2B ∨ b = 0x2D) ∧ Accepts .sign .float u type' ∨
          Accepts .sign .float (b :: u) type' := by
      rw [← charClass_other.1, ← charClass_other.2.1]
      simp only [Accepts, NumberState.numberType]
      cases charClass b <;> simp [NumberState.goto]
    rw [hstep]
    simp only [accepts_sign]
    constructor
    · rintro (⟨hb, hds, rfl⟩ | ⟨hds, rfl⟩)
      · refine ⟨⟨[b], u, rfl, ?_, hds⟩, rfl⟩
        obtain rfl | rfl := hb
        exacts [.plus, .minus]
      · exact ⟨⟨[], b :: u, rfl, .none, hds⟩, rfl⟩
    · rintro ⟨⟨sign, ds, hu, hs, hds⟩, rfl⟩
      cases hs with
      | none => exact .inr ⟨by rw [show b :: u = ds from hu]; exact hds, rfl⟩
      | plus | minus =>
        obtain ⟨rfl, rfl⟩ := List.cons.inj hu
        exact .inl ⟨by decide, hds, rfl⟩

theorem expText_cons {b : UInt8} {u : Bytes} :
    ExpText (b :: u) ↔
      (b = 0x65 ∨ b = 0x45) ∧ ∃ sign ds, u = sign ++ ds ∧ SignText sign ∧ Digits ds := by
  constructor
  · intro h
    cases h with
    | some he hs hds => exact ⟨he, _, _, rfl, hs, hds⟩
  · rintro ⟨he, sign, ds, rfl, hs, hds⟩
    exact .some he hs hds

theorem accepts_decimal2 {type' : NumberType} {u : Bytes} :
    Accepts .decimal2 .float u type' ↔
      (∃ ds exp, u = ds ++ exp ∧ (∀ d ∈ ds, IsDigit d) ∧ ExpText exp) ∧ type' = .float := by
  induction u with
  | nil =>
    constructor
    · rintro ⟨-, rfl⟩
      exact ⟨⟨[], [], rfl, by simp, .none⟩, rfl⟩
    · rintro ⟨-, rfl⟩
      exact ⟨rfl, rfl⟩
  | cons b u ih =>
    have hstep : Accepts .decimal2 .float (b :: u) type' ↔
        IsDigit b ∧ Accepts .decimal2 .float u type' ∨
          (b = 0x65 ∨ b = 0x45) ∧ Accepts .exponent .float u type' := by
      rw [← charClass_digit, ← charClass_e]
      simp only [Accepts, NumberState.numberType]
      cases charClass b <;> simp [NumberState.goto]
    rw [hstep, ih, accepts_exponent]
    constructor
    · rintro (⟨hb, ⟨ds, exp, rfl, hds, hexp⟩, rfl⟩ | ⟨hb, hu, rfl⟩)
      · exact ⟨⟨b :: ds, exp, rfl, List.forall_mem_cons.mpr ⟨hb, hds⟩, hexp⟩, rfl⟩
      · exact ⟨⟨[], b :: u, rfl, by simp, expText_cons.mpr ⟨hb, hu⟩⟩, rfl⟩
    · rintro ⟨⟨ds, exp, hu, hds, hexp⟩, rfl⟩
      cases ds with
      | nil =>
        obtain rfl : b :: u = exp := hu
        obtain ⟨hb, hu⟩ := expText_cons.mp hexp
        exact .inr ⟨hb, hu, rfl⟩
      | cons d ds =>
        obtain ⟨rfl, rfl⟩ := List.cons.inj hu
        obtain ⟨hb, hds⟩ := List.forall_mem_cons.mp hds
        exact .inl ⟨hb, ⟨ds, exp, rfl, hds, hexp⟩, rfl⟩

theorem accepts_decimal1 {type type' : NumberType} {u : Bytes} :
    Accepts .decimal1 type u type' ↔
      (∃ ds exp, u = ds ++ exp ∧ Digits ds ∧ ExpText exp) ∧ type' = .float := by
  cases u with
  | nil =>
    constructor
    · rintro ⟨h, -⟩
      cases h
    · rintro ⟨⟨ds, exp, hu, hds, -⟩, -⟩
      exact absurd (List.append_eq_nil_iff.mp hu.symm).1 hds.nonempty
  | cons b u =>
    have hstep : Accepts .decimal1 type (b :: u) type' ↔
        IsDigit b ∧ Accepts .decimal2 .float u type' := by
      rw [← charClass_digit]
      simp only [Accepts, NumberState.numberType]
      cases charClass b <;> simp [NumberState.goto]
    rw [hstep, accepts_decimal2]
    constructor
    · rintro ⟨hb, ⟨ds, exp, rfl, hds, hexp⟩, rfl⟩
      exact ⟨⟨b :: ds, exp, rfl, ⟨by simp, List.forall_mem_cons.mpr ⟨hb, hds⟩⟩, hexp⟩, rfl⟩
    · rintro ⟨⟨ds, exp, hu, hds, hexp⟩, rfl⟩
      cases ds with
      | nil => exact absurd rfl hds.nonempty
      | cons d ds =>
        obtain ⟨rfl, rfl⟩ := List.cons.inj hu
        obtain ⟨hb, hds⟩ := List.forall_mem_cons.mp hds.digits
        exact ⟨hb, ⟨ds, exp, rfl, hds, hexp⟩, rfl⟩

/-- What may follow the digits before the point. -/
def TailText (type : NumberType) (u : Bytes) (type' : NumberType) : Prop :=
  ∃ frac exp, u = frac ++ exp ∧ FracText frac ∧ ExpText exp ∧ type' = typeOf type u

theorem tailText_cons {type type' : NumberType} {b : UInt8} {u : Bytes} :
    TailText type (b :: u) type' ↔
      b = 0x2E ∧ Accepts .decimal1 type u type' ∨
        (b = 0x65 ∨ b = 0x45) ∧ Accepts .exponent type u type' := by
  rw [accepts_decimal1, accepts_exponent]
  constructor
  · rintro ⟨frac, exp, hu, hfrac, hexp, rfl⟩
    cases hfrac with
    | none =>
      obtain rfl : b :: u = exp := hu
      obtain ⟨hb, hu⟩ := expText_cons.mp hexp
      exact .inr ⟨hb, hu, rfl⟩
    | some hds =>
      obtain ⟨rfl, rfl⟩ := List.cons.inj hu
      exact .inl ⟨rfl, ⟨_, exp, rfl, hds, hexp⟩, rfl⟩
  · rintro (⟨rfl, ⟨ds, exp, rfl, hds, hexp⟩, rfl⟩ | ⟨hb, hu, rfl⟩)
    · exact ⟨0x2E :: ds, exp, rfl, .some hds, hexp, rfl⟩
    · exact ⟨[], b :: u, rfl, .none, expText_cons.mpr ⟨hb, hu⟩, rfl⟩

theorem tailText_nil {type type' : NumberType} : TailText type [] type' ↔ type' = type := by
  constructor
  · rintro ⟨frac, exp, -, -, -, rfl⟩
    rfl
  · rintro rfl
    exact ⟨[], [], rfl, .none, .none, rfl⟩

theorem accepts_zero {type type' : NumberType} {u : Bytes} :
    Accepts .zero type u type' ↔ TailText type u type' := by
  cases u with
  | nil => simp [tailText_nil, Accepts, NumberState.IsFinal, NumberState.goto,
      NumberState.numberType]
  | cons b u =>
    rw [tailText_cons, ← charClass_e, ← charClass_other.2.2]
    simp only [Accepts, NumberState.numberType]
    cases charClass b <;> simp [NumberState.goto]

theorem accepts_any1 {type type' : NumberType} {u : Bytes} :
    Accepts .any1 type u type' ↔
      ∃ ds v, u = ds ++ v ∧ (∀ d ∈ ds, IsDigit d) ∧ TailText type v type' := by
  induction u with
  | nil =>
    constructor
    · rintro ⟨-, rfl⟩
      exact ⟨[], [], rfl, by simp, tailText_nil.mpr rfl⟩
    · rintro ⟨ds, v, hu, -, hv⟩
      obtain ⟨rfl, rfl⟩ := List.append_eq_nil_iff.mp hu.symm
      exact ⟨rfl, tailText_nil.mp hv⟩
  | cons b u ih =>
    have hstep : Accepts .any1 type (b :: u) type' ↔
        IsDigit b ∧ Accepts .any1 type u type' ∨ TailText type (b :: u) type' := by
      rw [tailText_cons, ← charClass_digit, ← charClass_e, ← charClass_other.2.2]
      simp only [Accepts, NumberState.numberType]
      cases charClass b <;> simp [NumberState.goto]
    rw [hstep, ih]
    constructor
    · rintro (⟨hb, ds, v, rfl, hds, hv⟩ | hv)
      · exact ⟨b :: ds, v, rfl, List.forall_mem_cons.mpr ⟨hb, hds⟩, hv⟩
      · exact ⟨[], b :: u, rfl, by simp, hv⟩
    · rintro ⟨ds, v, hu, hds, hv⟩
      cases ds with
      | nil =>
        obtain rfl : b :: u = v := hu
        exact .inr hv
      | cons d ds =>
        obtain ⟨rfl, rfl⟩ := List.cons.inj hu
        obtain ⟨hb, hds⟩ := List.forall_mem_cons.mp hds
        exact .inl ⟨hb, ds, v, rfl, hds, hv⟩

theorem intText_cons {b : UInt8} {ds : Bytes} :
    IntText (b :: ds) ↔ IsDigit b ∧ (∀ d ∈ ds, IsDigit d) ∧ (b = 0x30 → ds = []) := by
  constructor
  · intro h
    obtain ⟨hb, hds⟩ := List.forall_mem_cons.mp h.digits
    refine ⟨hb, hds, ?_⟩
    rintro rfl
    exact (List.cons.inj (h.zero rfl)).2
  · rintro ⟨hb, hds, hzero⟩
    refine ⟨⟨by simp, List.forall_mem_cons.mpr ⟨hb, hds⟩⟩, ?_⟩
    intro hhead
    obtain rfl : b = 0x30 := by simpa using hhead
    rw [hzero rfl]

def initState (b : UInt8) : NumberState :=
  if b = 0x2D then .minus else if b = 0x30 then .zero else .any1

theorem accepts_digit {type type' : NumberType} {b : UInt8} {u : Bytes} (hb : IsDigit b) :
    Accepts (initState b) type u type' ↔
      ∃ int v, b :: u = int ++ v ∧ IntText int ∧ TailText type v type' := by
  have hminus : b ≠ 0x2D := by
    rintro rfl
    exact absurd hb (by decide)
  rw [initState, if_neg hminus]
  split_ifs with hzero
  · obtain rfl := hzero
    rw [accepts_zero]
    constructor
    · intro h
      exact ⟨[0x30], u, rfl, intText_cons.mpr ⟨hb, by simp, fun _ => rfl⟩, h⟩
    · rintro ⟨int, v, hu, hint, hv⟩
      cases int with
      | nil => exact absurd rfl hint.nonempty
      | cons d ds =>
        obtain ⟨rfl, rfl⟩ := List.cons.inj hu
        obtain ⟨-, -, hds⟩ := intText_cons.mp hint
        rwa [hds rfl]
  · rw [accepts_any1]
    constructor
    · rintro ⟨ds, v, rfl, hds, hv⟩
      exact ⟨b :: ds, v, rfl, intText_cons.mpr ⟨hb, hds, fun h => absurd h hzero⟩, hv⟩
    · rintro ⟨int, v, hu, hint, hv⟩
      cases int with
      | nil => exact absurd rfl hint.nonempty
      | cons d ds =>
        obtain ⟨rfl, rfl⟩ := List.cons.inj hu
        obtain ⟨-, hds, -⟩ := intText_cons.mp hint
        exact ⟨ds, v, rfl, hds, hv⟩

theorem accepts_minus {type type' : NumberType} {u : Bytes} :
    Accepts .minus type u type' ↔
      ∃ int v, u = int ++ v ∧ IntText int ∧ TailText .integer v type' := by
  cases u with
  | nil =>
    constructor
    · rintro ⟨h, -⟩
      cases h
    · rintro ⟨int, v, hu, hint, -⟩
      exact absurd (List.append_eq_nil_iff.mp hu.symm).1 hint.nonempty
  | cons b u =>
    have hstep : Accepts .minus type (b :: u) type' ↔
        IsDigit b ∧ Accepts (initState b) .integer u type' := by
      rw [← charClass_digit]
      simp only [Accepts, NumberState.numberType, initState, ← charClass_zero,
        ← charClass_other.2.1]
      cases charClass b <;> simp [NumberState.goto]
    rw [hstep]
    constructor
    · rintro ⟨hb, h⟩
      exact (accepts_digit hb).mp h
    · rintro ⟨int, v, hu, hint, hv⟩
      cases int with
      | nil => exact absurd rfl hint.nonempty
      | cons d ds =>
        obtain ⟨rfl, rfl⟩ := List.cons.inj hu
        have hb := (intText_cons.mp hint).1
        exact ⟨hb, (accepts_digit hb).mpr ⟨b :: ds, v, rfl, hint, hv⟩⟩

def NumberStart (b : UInt8) : Prop := b = 0x2D ∨ 0x30 ≤ b ∧ b ≤ 0x39

theorem accepts_number {b : UInt8} {u : Bytes} {type : NumberType} (hb : NumberStart b) :
    Accepts (initState b) .unsigned u type ↔ NumberText (b :: u) type := by
  obtain rfl | hb := hb
  · rw [show initState 0x2D = .minus from rfl, accepts_minus]
    constructor
    · rintro ⟨int, v, rfl, hint, frac, exp, rfl, hfrac, hexp, rfl⟩
      exact .integer hint hfrac hexp
    · intro h
      generalize htext : 0x2D :: u = text at h
      cases h with
      | @unsigned int frac exp hint hfrac hexp =>
        cases int with
        | nil => exact absurd rfl hint.nonempty
        | cons d ds =>
          obtain ⟨rfl, -⟩ := List.cons.inj htext
          exact absurd (intText_cons.mp hint).1 (by decide)
      | integer hint hfrac hexp =>
        obtain ⟨-, rfl⟩ := List.cons.inj htext
        exact ⟨_, _, rfl, hint, _, _, rfl, hfrac, hexp, rfl⟩
  · rw [accepts_digit hb]
    constructor
    · rintro ⟨int, v, hu, hint, frac, exp, rfl, hfrac, hexp, rfl⟩
      rw [hu]
      exact .unsigned hint hfrac hexp
    · intro h
      generalize htext : b :: u = text at h
      cases h with
      | unsigned hint hfrac hexp => exact ⟨_, _, rfl, hint, _, _, rfl, hfrac, hexp, rfl⟩
      | integer =>
        obtain ⟨rfl, -⟩ := List.cons.inj htext
        exact absurd hb (by decide)

/-! ### The whole number -/

/-- With the byte that comes next, `text` no longer begins a number. -/
def Stops (text rest : Bytes) : Prop :=
  ∀ b ∈ rest.head?, ∀ w type, ¬ NumberText (text ++ b :: w) type

variable {F : Type} (lib : FloatLib F)

theorem scanNumber_eq_ok {current : UInt8} {input rest : Bytes} {token : Token F}
    (hc : NumberStart current) :
    scanNumber lib current input = .ok (token, rest) ↔
      ∃ text type, current :: input = text ++ rest ∧ NumberText text type ∧ Stops text rest ∧
        token = convert lib text type := by
  have hmunch (u : Bytes) (type : NumberType) :
      Munch (initState current) .unsigned u rest type ↔
        NumberText (current :: u) type ∧ Stops (current :: u) rest := by
    simp only [Munch, Stops, accepts_number hc, List.cons_append]
  simp only [scanNumber, map_eq_ok]
  constructor
  · rintro ⟨⟨type, buffer, input'⟩, hscan, heq⟩
    cases heq
    obtain ⟨u, rfl, rfl, hm⟩ := scanNumberFrom_eq_ok.mp hscan
    obtain ⟨htext, hstops⟩ := (hmunch u type).mp hm
    exact ⟨current :: u, type, rfl, htext, hstops, rfl⟩
  · rintro ⟨text, type, hinput, htext, hstops, rfl⟩
    cases text with
    | nil =>
      generalize htext' : ([] : Bytes) = text at htext
      cases htext with
      | unsigned hint =>
        exact absurd (List.append_eq_nil_iff.mp htext'.symm).1 hint.nonempty
      | integer => cases htext'
    | cons c u =>
      obtain ⟨rfl, rfl⟩ := List.cons.inj hinput
      refine ⟨(type, current :: u, rest), ?_, rfl⟩
      exact scanNumberFrom_eq_ok.mpr ⟨u, rfl, rfl, (hmunch u type).mpr ⟨htext, hstops⟩⟩

end WebrtcNativeDemo.Lexer
