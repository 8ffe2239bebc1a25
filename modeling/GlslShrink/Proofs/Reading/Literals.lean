import GlslShrink.Proofs.Reading.Lexical
import GlslShrink.Proofs.Reading.Values

/-!
Number literals, layout qualifiers and directives. `IntText` and `FloatText` say what the literals
are made of: the readers give such texts only, and read each of them whole if the text after it
does not go on with it. So a text is accepted by its reader if and only if it has the form.
-/

set_option autoImplicit false

namespace GlslShrink

open Reader

namespace Token

/-- One or more characters that pass the test. -/
def RunOf (test : Char → Bool) (chars : List Char) : Prop :=
  chars ≠ [] ∧ ∀ c ∈ chars, test c = true

theorem maybe_read {choices : List Char} {c : Char} (rest : List Char) (hc : c ∈ choices) :
    maybe choices (c :: rest) = .read [c] rest := by
  rw [maybe, branch_read _ _ (satisfying_read rest (by simpa using hc)), pure_apply]

theorem maybe_none {choices rest : List Char} (h : Stops choices.contains rest) :
    maybe choices rest = .read [] rest := by
  rw [maybe, branch_refuses _ _ (satisfying_refuses h), pure_apply]

theorem maybe_inv {choices text chars rest : List Char}
    (h : maybe choices text = .read chars rest) :
    text = chars ++ rest ∧ (chars = [] ∨ ∃ c ∈ choices, chars = [c]) := by
  rcases branch_inv h with ⟨c, middle, hread, hpure⟩ | ⟨-, hpure⟩
  · cases hpure
    obtain ⟨rfl, hc⟩ := satisfying_inv hread
    exact ⟨rfl, Or.inr ⟨c, by simpa using hc, rfl⟩⟩
  · cases hpure
    exact ⟨rfl, Or.inl rfl⟩

/-! ### Exponents -/

inductive ExponentText : List Char → Prop where
  | intro {e : Char} {sign digits : List Char} (he : e = 'e' ∨ e = 'E')
      (hsign : sign = [] ∨ ∃ c ∈ ['+', '-'], sign = [c]) (hdigits : RunOf Char.isDigit digits) :
    ExponentText (e :: sign ++ digits)

/-- Whether an exponent can start with this character. -/
def startsExponent (c : Char) : Bool :=
  ['e', 'E'].contains c

theorem exponent_read {power rest : List Char} (h : ExponentText power)
    (hrest : Stops Char.isDigit rest) : exponent (power ++ rest) = .read power rest := by
  obtain ⟨he, hsign, hne, hall⟩ := h
  rename_i e sign digits
  have hmaybe : maybe ['+', '-'] (sign ++ (digits ++ rest)) = .read sign (digits ++ rest) := by
    rcases hsign with rfl | ⟨c, hc, rfl⟩
    · obtain ⟨d, others, rfl⟩ := List.exists_cons_of_ne_nil hne
      have hd : d.isDigit = true := hall d (by simp)
      refine maybe_none (stops_cons.mpr ?_)
      rw [Bool.eq_false_iff]
      intro hmem
      simp only [List.contains_eq_mem, List.mem_cons, List.not_mem_nil, or_false,
        decide_eq_true_eq] at hmem
      rcases hmem with rfl | rfl <;> revert hd <;> decide
    · exact maybe_read _ hc
  rw [List.cons_append, List.cons_append, List.append_assoc, exponent,
    bind_read _ (satisfying_read _ (by rcases he with rfl | rfl <;> rfl)), bind_read _ hmaybe,
    bind_read _ (run1_read hne hall hrest), pure_apply, List.cons_append]

theorem exponent_refuses {text : List Char} (h : Stops startsExponent text) :
    exponent.Refuses text :=
  (satisfying_refuses h).bind _

theorem exponent_inv {text power rest : List Char} (h : exponent text = .read power rest) :
    text = power ++ rest ∧ ExponentText power := by
  obtain ⟨e, next, hread, h⟩ := bind_inv h
  obtain ⟨sign, next', hread', h⟩ := bind_inv h
  obtain ⟨digits, next'', hread'', h⟩ := bind_inv h
  cases h
  obtain ⟨rfl, he⟩ := satisfying_inv hread
  obtain ⟨rfl, hsign⟩ := maybe_inv hread'
  obtain ⟨rfl, hne, hall, -⟩ := run1_inv hread''
  exact ⟨by simp, .intro (by simpa using he) hsign ⟨hne, hall⟩⟩

/-- No exponent, or one. -/
def MaybeExponent (power : List Char) : Prop :=
  power = [] ∨ ExponentText power

theorem maybeExponent_read {power rest : List Char} (h : MaybeExponent power)
    (hdigit : Stops Char.isDigit rest) (he : Stops startsExponent rest) :
    maybeExponent (power ++ rest) = .read power rest := by
  rcases h with rfl | h
  · rw [maybeExponent, List.nil_append, branch_refuses _ _ (exponent_refuses he), pure_apply]
  · rw [maybeExponent, branch_read _ _ (exponent_read h hdigit), pure_apply]

theorem maybeExponent_inv {text power rest : List Char}
    (h : maybeExponent text = .read power rest) : text = power ++ rest ∧ MaybeExponent power := by
  rcases branch_inv h with ⟨chars, middle, hread, hpure⟩ | ⟨-, hpure⟩
  · cases hpure
    obtain ⟨rfl, hpower⟩ := exponent_inv hread
    exact ⟨rfl, Or.inr hpower⟩
  · cases hpure
    exact ⟨rfl, Or.inl rfl⟩

theorem MaybeExponent.stops {power rest : List Char} (h : MaybeExponent power)
    (hrest : Stops Char.isDigit rest) : Stops Char.isDigit (power ++ rest) := by
  rcases h with rfl | ⟨he, -, -⟩
  · exact hrest
  · refine stops_cons.mpr ?_
    rcases he with rfl | rfl <;> rfl

/-! ### Floating point literals -/

/-- Numbers with a point or an exponent. -/
inductive FloatNumber : List Char → Prop where
  | pointed {whole fraction power : List Char} (hwhole : RunOf Char.isDigit whole)
      (hfraction : ∀ c ∈ fraction, c.isDigit = true) (hpower : MaybeExponent power) :
    FloatNumber (whole ++ '.' :: fraction ++ power)
  | fraction {fraction power : List Char} (hfraction : RunOf Char.isDigit fraction)
      (hpower : MaybeExponent power) :
    FloatNumber ('.' :: fraction ++ power)
  | scaled {whole power : List Char} (hwhole : RunOf Char.isDigit whole)
      (hpower : ExponentText power) :
    FloatNumber (whole ++ power)

/-- Numbers with a point or an exponent, and what may end them. -/
def FloatText (chars : List Char) : Prop :=
  ∃ number ending, FloatNumber number ∧ (ending = [] ∨ ∃ c ∈ ['f', 'F'], ending = [c]) ∧
    chars = number ++ ending

theorem pointedNumber_refuses {digits rest : List Char} (hdigits : RunOf Char.isDigit digits)
    (hrest : Stops (fun c => c.isDigit || c == '.') rest) :
    pointedNumber.Refuses (digits ++ rest) := by
  have hdigit : Stops Char.isDigit rest := hrest.imp fun c hc => by simp [hc]
  have hpoint : Stops (· == '.') rest := hrest.imp fun c hc => by simp_all
  exact Refuses.bind_of_read (run1_read hdigits.1 hdigits.2 hdigit)
    ((satisfying_refuses hpoint).bind _)

theorem fractionNumber_refuses {digits : List Char} (rest : List Char)
    (hdigits : RunOf Char.isDigit digits) : fractionNumber.Refuses (digits ++ rest) := by
  obtain ⟨hne, hall⟩ := hdigits
  obtain ⟨d, others, rfl⟩ := List.exists_cons_of_ne_nil hne
  have hd : d.isDigit = true := hall d (by simp)
  refine (satisfying_refuses (stops_cons.mpr ?_)).bind _
  rw [beq_eq_false_iff_ne]
  rintro rfl
  revert hd
  decide

theorem floatNumber_read {number rest : List Char} (h : FloatNumber number)
    (hdigit : Stops Char.isDigit rest) (he : Stops startsExponent rest) :
    (pointedNumber <|> fractionNumber <|> scaledNumber) (number ++ rest) = .read number rest := by
  cases h with
  | @pointed whole fraction power hwhole hfraction hpower =>
    refine orElse_read _ ?_
    have hpoint : Stops Char.isDigit ('.' :: (fraction ++ (power ++ rest))) :=
      stops_cons.mpr rfl
    have happend : whole ++ '.' :: fraction ++ power ++ rest =
        whole ++ '.' :: (fraction ++ (power ++ rest)) := by simp
    rw [happend, pointedNumber, bind_read _ (run1_read hwhole.1 hwhole.2 hpoint), exactly,
      bind_read _ (satisfying_read _ (by simp)),
      bind_read _ (run_read hfraction (hpower.stops hdigit)),
      bind_read _ (maybeExponent_read hpower hdigit he), pure_apply]
  | @fraction fraction power hfraction hpower =>
    refine orElse_refuses ?_ (orElse_read _ ?_)
    · exact (satisfying_refuses (stops_cons.mpr rfl)).bind _ |>.bind _
    · have happend : '.' :: fraction ++ power ++ rest = '.' :: (fraction ++ (power ++ rest)) := by
        simp
      rw [happend, fractionNumber, exactly, bind_read _ (satisfying_read _ (by simp)),
        bind_read _ (run1_read hfraction.1 hfraction.2 (hpower.stops hdigit)),
        bind_read _ (maybeExponent_read hpower hdigit he), pure_apply]
  | @scaled whole power hwhole hpower =>
    rw [List.append_assoc]
    have hstops : Stops (fun c => c.isDigit || c == '.') (power ++ rest) := by
      obtain ⟨he, -, -⟩ := hpower
      refine stops_cons.mpr ?_
      rcases he with rfl | rfl <;> rfl
    have hnext : Stops Char.isDigit (power ++ rest) := hstops.imp fun c hc => by simp [hc]
    refine orElse_refuses (pointedNumber_refuses hwhole hstops)
      (orElse_refuses (fractionNumber_refuses _ hwhole) ?_)
    rw [scaledNumber, bind_read _ (run1_read hwhole.1 hwhole.2 hnext),
      bind_read _ (exponent_read hpower hdigit), pure_apply]

theorem pointedNumber_inv {text number rest : List Char}
    (h : pointedNumber text = .read number rest) : text = number ++ rest ∧ FloatNumber number := by
  obtain ⟨whole, next, hread, h⟩ := bind_inv h
  obtain ⟨point, next', hread', h⟩ := bind_inv h
  obtain ⟨fraction, next'', hread'', h⟩ := bind_inv h
  obtain ⟨power, next''', hread''', h⟩ := bind_inv h
  cases h
  obtain ⟨rfl, hne, hall, -⟩ := run1_inv hread
  obtain ⟨rfl, hpoint⟩ := satisfying_inv hread'
  obtain ⟨rfl, hfraction, -⟩ := run_inv hread''
  obtain ⟨rfl, hpower⟩ := maybeExponent_inv hread'''
  cases beq_iff_eq.mp hpoint
  exact ⟨by simp, .pointed ⟨hne, hall⟩ hfraction hpower⟩

theorem fractionNumber_inv {text number rest : List Char}
    (h : fractionNumber text = .read number rest) : text = number ++ rest ∧ FloatNumber number := by
  obtain ⟨point, next, hread, h⟩ := bind_inv h
  obtain ⟨fraction, next', hread', h⟩ := bind_inv h
  obtain ⟨power, next'', hread'', h⟩ := bind_inv h
  cases h
  obtain ⟨rfl, hpoint⟩ := satisfying_inv hread
  obtain ⟨rfl, hne, hfraction, -⟩ := run1_inv hread'
  obtain ⟨rfl, hpower⟩ := maybeExponent_inv hread''
  cases beq_iff_eq.mp hpoint
  exact ⟨by simp, .fraction ⟨hne, hfraction⟩ hpower⟩

theorem scaledNumber_inv {text number rest : List Char}
    (h : scaledNumber text = .read number rest) : text = number ++ rest ∧ FloatNumber number := by
  obtain ⟨whole, next, hread, h⟩ := bind_inv h
  obtain ⟨power, next', hread', h⟩ := bind_inv h
  cases h
  obtain ⟨rfl, hne, hall, -⟩ := run1_inv hread
  obtain ⟨rfl, hpower⟩ := exponent_inv hread'
  exact ⟨by simp, .scaled ⟨hne, hall⟩ hpower⟩

theorem floatLiteral_read {chars rest : List Char} (h : FloatText chars)
    (hrest : Stops Word.isPart rest) :
    floatLiteral (chars ++ rest) = .read (String.ofList chars) (skipBlank rest) := by
  obtain ⟨number, ending, hnumber, hending, rfl⟩ := h
  have hdigit : Stops Char.isDigit (ending ++ rest) := by
    rcases hending with rfl | ⟨c, hc, rfl⟩
    · exact hrest.imp fun c hc => by simp [Word.isPart, Char.isAlphanum, hc]
    · have hall : ∀ c ∈ ['f', 'F'], c.isDigit = false := forall_mem_of_all (by decide)
      exact stops_cons.mpr (hall c hc)
  have he : Stops startsExponent (ending ++ rest) := by
    rcases hending with rfl | ⟨c, hc, rfl⟩
    · refine hrest.imp fun c hc => ?_
      simp only [startsExponent, List.contains_eq_mem, List.mem_cons, List.not_mem_nil, or_false,
        decide_eq_true_eq] at hc
      rcases hc with rfl | rfl <;> rfl
    · have hall : ∀ c ∈ ['f', 'F'], startsExponent c = false := forall_mem_of_all (by decide)
      exact stops_cons.mpr (hall c hc)
  have hmaybe : maybe ['f', 'F'] (ending ++ rest) = .read ending rest := by
    rcases hending with rfl | ⟨c, hc, rfl⟩
    · refine maybe_none (hrest.imp fun c hc => ?_)
      simp only [List.contains_eq_mem, List.mem_cons, List.not_mem_nil, or_false,
        decide_eq_true_eq] at hc
      rcases hc with rfl | rfl <;> rfl
    · exact maybe_read rest hc
  refine lexeme_read ?_
  rw [List.append_assoc, bind_read _ (floatNumber_read hnumber hdigit he), bind_read _ hmaybe,
    bind_read _ (notNext_read hrest), pure_apply]

theorem floatLiteral_inv {text rest : List Char} {value : String}
    (h : floatLiteral text = .read value rest) : FloatText value.toList := by
  obtain ⟨next, h, -⟩ := lexeme_inv h
  obtain ⟨number, next', hnumber, h⟩ := bind_inv h
  obtain ⟨ending, next'', hending, h⟩ := bind_inv h
  obtain ⟨-, next''', -, h⟩ := bind_inv h
  cases h
  rw [String.toList_ofList]
  refine ⟨number, ending, ?_, (maybe_inv hending).2, rfl⟩
  rcases orElse_inv hnumber with hnumber | ⟨-, hnumber⟩
  · exact (pointedNumber_inv hnumber).2
  rcases orElse_inv hnumber with hnumber | ⟨-, hnumber⟩
  · exact (fractionNumber_inv hnumber).2
  · exact (scaledNumber_inv hnumber).2

/-- A text is accepted as a floating point literal if and only if it has the form of one. -/
theorem accepts_floatLiteral {text : String} :
    floatLiteral.accepts text = true ↔ FloatText text.toList := by
  rw [accepts, beq_iff_eq]
  constructor
  · intro h
    exact floatLiteral_inv h
  · intro h
    have hread := floatLiteral_read h (stops_nil _)
    rwa [List.append_nil, String.ofList_toList, skipBlank_nil] at hread

theorem isSolid_of_isPart {c : Char} (h : Word.isPart c = true) : isSolid c = true := by
  simp only [isSolid, Bool.and_eq_true, Bool.not_eq_true', bne_iff_ne]
  constructor
  · refine Bool.eq_false_iff.mpr fun hblank => ?_
    simp only [Text.isBlank, Bool.or_eq_true, beq_iff_eq] at hblank
    rcases hblank with ((rfl | rfl) | rfl) | rfl <;> revert h <;> decide
  · rintro rfl
    revert h
    decide

theorem isPart_of_isDigit {c : Char} (h : c.isDigit = true) : Word.isPart c = true := by
  simp [Word.isPart, Char.isAlphanum, h]

theorem FloatText.head {chars : List Char} (h : FloatText chars) :
    ∃ c others, chars = c :: others ∧ (c.isDigit || c == '.') = true := by
  obtain ⟨number, ending, hnumber, -, rfl⟩ := h
  cases hnumber with
  | pointed hwhole =>
    obtain ⟨d, others, rfl⟩ := List.exists_cons_of_ne_nil hwhole.1
    exact ⟨d, _, rfl, by simp [hwhole.2 d]⟩
  | fraction => exact ⟨'.', _, rfl, rfl⟩
  | scaled hwhole =>
    obtain ⟨d, others, rfl⟩ := List.exists_cons_of_ne_nil hwhole.1
    exact ⟨d, _, rfl, by simp [hwhole.2 d]⟩

/-! ### Integer literals -/

/-- Digits, decimal or hexadecimal ones, and what may end them. -/
inductive IntText : List Char → Prop where
  | hex {x : Char} {digits ending : List Char} (hx : x = 'x' ∨ x = 'X')
      (hdigits : RunOf isHexDigit digits)
      (hending : ending = [] ∨ ∃ c ∈ ['u', 'U'], ending = [c]) :
    IntText ('0' :: x :: digits ++ ending)
  | decimal {digits ending : List Char} (hdigits : RunOf Char.isDigit digits)
      (hending : ending = [] ∨ ∃ c ∈ ['u', 'U'], ending = [c]) :
    IntText (digits ++ ending)

theorem IntText.head {chars : List Char} (h : IntText chars) :
    ∃ c others, chars = c :: others ∧ c.isDigit = true := by
  cases h with
  | hex => exact ⟨_, _, rfl, rfl⟩
  | decimal hdigits =>
    obtain ⟨hne, hall⟩ := hdigits
    obtain ⟨d, others, rfl⟩ := List.exists_cons_of_ne_nil hne
    exact ⟨d, _, rfl, hall d (by simp)⟩

theorem isPart_of_isHexDigit {c : Char} (h : isHexDigit c = true) : Word.isPart c = true := by
  simp only [isHexDigit, Bool.or_eq_true, Bool.and_eq_true, decide_eq_true_eq] at h
  simp only [Word.isPart, Char.isAlphanum, Bool.or_eq_true, isAlpha_iff]
  rcases h with (h | ⟨h1, h2⟩) | ⟨h1, h2⟩
  · exact Or.inl (Or.inr h)
  · exact Or.inl (Or.inl (Or.inr ⟨h1, UInt32.le_trans h2 (by decide)⟩))
  · exact Or.inl (Or.inl (Or.inl ⟨h1, UInt32.le_trans h2 (by decide)⟩))

/-- What must not follow an integer literal. -/
def continuesInt (c : Char) : Bool :=
  Word.isPart c || c == '.'

/-- What follows the digits of an integer literal is not a digit, a point or an exponent. -/
theorem stops_ending {ending rest : List Char} (hending : ending = [] ∨ ∃ c ∈ ['u', 'U'], ending = [c])
    (hrest : Stops continuesInt rest) :
    Stops (fun c => isHexDigit c || c == '.' || c == 'x' || c == 'X') (ending ++ rest) := by
  rcases hending with rfl | ⟨c, hc, rfl⟩
  · refine hrest.imp fun c hc => ?_
    simp only [Bool.or_eq_true, beq_iff_eq] at hc
    rcases hc with ((hc | rfl) | rfl) | rfl
    · simp [continuesInt, isPart_of_isHexDigit hc]
    · rfl
    · rfl
    · rfl
  · have hall : ∀ c ∈ ['u', 'U'],
        (isHexDigit c || c == '.' || c == 'x' || c == 'X') = false := forall_mem_of_all (by decide)
    exact stops_cons.mpr (hall c hc)

theorem hexNumber_refuses {digits rest : List Char} (hdigits : RunOf Char.isDigit digits)
    (hrest : Stops (fun c => c == 'x' || c == 'X') rest) : hexNumber.Refuses (digits ++ rest) := by
  obtain ⟨hne, hall⟩ := hdigits
  obtain ⟨d, others, rfl⟩ := List.exists_cons_of_ne_nil hne
  have hnext : Stops (fun c => c == 'x' || c == 'X') (others ++ rest) := by
    cases others with
    | nil => exact hrest
    | cons d' others =>
      have hd' : d'.isDigit = true := hall d' (by simp)
      refine stops_cons.mpr (Bool.eq_false_iff.mpr fun hx => ?_)
      simp only [Bool.or_eq_true, beq_iff_eq] at hx
      rcases hx with rfl | rfl <;> revert hd' <;> decide
  refine Refuses.bind (oneOf_refuses fun spelling hspelling => ?_) _
  rw [List.cons_append]
  generalize others ++ rest = tail at hnext
  simp only [List.mem_cons, List.not_mem_nil, or_false] at hspelling
  cases tail with
  | nil => rcases hspelling with rfl | rfl <;> simp [Text.afterStart?]
  | cons c tail =>
    have hc := stops_cons.mp hnext
    simp only [Bool.or_eq_false_iff, beq_eq_false_iff_ne, ne_eq] at hc
    rcases hspelling with rfl | rfl <;> simp [Text.afterStart?, Ne.symm hc.1, Ne.symm hc.2]

theorem hexNumber_read {x : Char} {digits rest : List Char} (hx : x = 'x' ∨ x = 'X')
    (hdigits : RunOf isHexDigit digits) (hrest : Stops isHexDigit rest) :
    hexNumber ('0' :: x :: digits ++ rest) = .read ('0' :: x :: digits) rest := by
  have hlead : oneOf [['0', 'x'], ['0', 'X']] ('0' :: x :: (digits ++ rest)) =
      .read (String.ofList ['0', x]) (digits ++ rest) := by
    rcases hx with rfl | rfl
    · rfl
    · simp [oneOf, Text.afterStart?]
  rw [List.cons_append, List.cons_append, hexNumber, bind_read _ hlead,
    bind_read _ (run1_read hdigits.1 hdigits.2 hrest), pure_apply, String.toList_ofList]
  rfl

theorem intLiteral_read {chars rest : List Char} (h : IntText chars)
    (hrest : Stops continuesInt rest) :
    intLiteral (chars ++ rest) = .read (String.ofList chars) (skipBlank rest) := by
  have hmaybe : ∀ ending : List Char, (ending = [] ∨ ∃ c ∈ ['u', 'U'], ending = [c]) →
      maybe ['u', 'U'] (ending ++ rest) = .read ending rest := by
    rintro _ (rfl | ⟨c, hc, rfl⟩)
    · refine maybe_none (hrest.imp fun c hc => ?_)
      simp only [List.contains_eq_mem, List.mem_cons, List.not_mem_nil, or_false,
        decide_eq_true_eq] at hc
      rcases hc with rfl | rfl <;> rfl
    · exact maybe_read rest hc
  have hfinish : ∀ number ending : List Char, (ending = [] ∨ ∃ c ∈ ['u', 'U'], ending = [c]) →
      (hexNumber <|> run1 Char.isDigit) (number ++ (ending ++ rest)) =
        .read number (ending ++ rest) →
      intLiteral (number ++ ending ++ rest) =
        .read (String.ofList (number ++ ending)) (skipBlank rest) := by
    intro number ending hending hnumber
    refine lexeme_read ?_
    rw [List.append_assoc, bind_read _ hnumber, bind_read _ (hmaybe ending hending)]
    exact bind_read _ (notNext_read hrest)
  cases h with
  | @hex x digits ending hx hdigits hending =>
    have hstops := stops_ending hending hrest
    refine hfinish ('0' :: x :: digits) ending hending (orElse_read _ ?_)
    exact hexNumber_read hx hdigits (hstops.imp fun c hc => by simp [hc])
  | @decimal digits ending hdigits hending =>
    have hstops := stops_ending hending hrest
    refine hfinish digits ending hending (orElse_refuses ?_ ?_)
    · refine hexNumber_refuses hdigits (hstops.imp fun c hc => ?_)
      simp only [Bool.or_eq_true] at hc ⊢
      rcases hc with hc | hc
      · exact Or.inl (Or.inr hc)
      · exact Or.inr hc
    · refine run1_read hdigits.1 hdigits.2 (hstops.imp fun c hc => ?_)
      simp [isHexDigit, hc]

theorem intLiteral_inv {text rest : List Char} {value : String}
    (h : intLiteral text = .read value rest) : IntText value.toList := by
  obtain ⟨next, h, -⟩ := lexeme_inv h
  obtain ⟨number, next', hnumber, h⟩ := bind_inv h
  obtain ⟨ending, next'', hending, h⟩ := bind_inv h
  obtain ⟨-, next''', -, h⟩ := bind_inv h
  cases h
  rw [String.toList_ofList]
  have hending := (maybe_inv hending).2
  rcases orElse_inv hnumber with hnumber | ⟨-, hnumber⟩
  · obtain ⟨lead, middle, hlead, hnumber⟩ := bind_inv hnumber
    obtain ⟨digits, middle', hdigits, hnumber⟩ := bind_inv hnumber
    cases hnumber
    obtain ⟨-, hne, hall, -⟩ := run1_inv hdigits
    have hspelling : lead = "0x" ∨ lead = "0X" := by
      simp only [oneOf] at hlead
      split at hlead
      · cases hlead
        exact Or.inl rfl
      · split at hlead
        · cases hlead
          exact Or.inr rfl
        · cases hlead
    rcases hspelling with rfl | rfl
    · exact .hex (Or.inl rfl) ⟨hne, hall⟩ hending
    · exact .hex (Or.inr rfl) ⟨hne, hall⟩ hending
  · obtain ⟨-, hne, hall, -⟩ := run1_inv hnumber
    exact .decimal ⟨hne, hall⟩ hending

/-- A text is accepted as an integer literal if and only if it has the form of one. -/
theorem accepts_intLiteral {text : String} :
    intLiteral.accepts text = true ↔ IntText text.toList := by
  rw [accepts, beq_iff_eq]
  constructor
  · intro h
    exact intLiteral_inv h
  · intro h
    have hread := intLiteral_read h (stops_nil _)
    rwa [List.append_nil, String.ofList_toList, skipBlank_nil] at hread

/-- An integer literal is not taken for a floating point literal. -/
theorem floatLiteral_refuses_int {chars rest : List Char} (h : IntText chars)
    (hrest : Stops continuesInt rest) : floatLiteral.Refuses (chars ++ rest) := by
  -- all three forms of numbers get stuck after the leading digits
  have hstuck : ∀ digits after : List Char, RunOf Char.isDigit digits →
      Stops (fun c => c.isDigit || c == '.' || startsExponent c) after →
      floatLiteral.Refuses (digits ++ after) := by
    intro digits after hdigits hafter
    have hdigit : Stops Char.isDigit after := hafter.imp fun c hc => by simp [hc]
    refine lexeme_refuses (Refuses.bind (Refuses.orElse ?_ (Refuses.orElse ?_ ?_)) _)
    · exact pointedNumber_refuses hdigits (hafter.imp fun c hc => by simp_all)
    · exact fractionNumber_refuses _ hdigits
    · exact Refuses.bind_of_read (run1_read hdigits.1 hdigits.2 hdigit)
        (Refuses.bind (exponent_refuses (hafter.imp fun c hc => by simp [hc])) _)
  cases h with
  | @hex x digits ending hx hdigits hending =>
    refine hstuck ['0'] (x :: digits ++ ending ++ rest) ⟨by simp, forall_mem_of_all (by decide)⟩
      (stops_cons.mpr ?_)
    rcases hx with rfl | rfl <;> rfl
  | @decimal digits ending hdigits hending =>
    rw [List.append_assoc]
    refine hstuck digits _ hdigits ((stops_ending hending hrest).imp fun c hc => ?_)
    simp only [startsExponent, List.contains_eq_mem, List.mem_cons, List.not_mem_nil, or_false,
      Bool.or_eq_true, beq_iff_eq, decide_eq_true_eq] at hc
    rcases hc with (hc | rfl) | rfl | rfl
    · simp [isHexDigit, hc]
    · rfl
    · rfl
    · rfl

/-- A text that starts with neither a digit nor a point holds no number in front. -/
theorem numbers_refuse {text : List Char} (h : Stops (fun c => c.isDigit || c == '.') text) :
    floatLiteral.Refuses text ∧ intLiteral.Refuses text := by
  have hdigit : Stops Char.isDigit text := h.imp fun c hc => by simp [hc]
  have hpoint : Stops (· == '.') text := h.imp fun c hc => by simp_all
  constructor
  · refine lexeme_refuses (Refuses.bind (Refuses.orElse ?_ (Refuses.orElse ?_ ?_)) _)
    · exact (run1_refuses hdigit).bind _
    · exact (satisfying_refuses hpoint).bind _
    · exact (run1_refuses hdigit).bind _
  · refine lexeme_refuses (Refuses.bind (Refuses.orElse (Refuses.bind (oneOf_refuses ?_) _) ?_) _)
    · intro spelling hspelling
      have hzero : text.head? ≠ some '0' := by
        intro hhead
        exact absurd (hdigit '0' hhead) (by decide)
      cases text with
      | nil => revert spelling; decide
      | cons c tail =>
        simp only [List.head?_cons, ne_eq, Option.some.injEq] at hzero
        simp only [List.mem_cons, List.not_mem_nil, or_false] at hspelling
        rcases hspelling with rfl | rfl <;> simp [Text.afterStart?, Ne.symm hzero]
    · exact run1_refuses hdigit

/-! ### Directives -/

theorem directive_read {text : String} {rest : List Char} (h : Text.isDirective text = true)
    (hrest : ∀ c ∈ rest.head?, c = '\n') :
    directive (text.toList ++ rest) = .read text (skipBlank rest) := by
  simp only [Text.isDirective, Bool.and_eq_true, beq_iff_eq, Bool.not_eq_true'] at h
  obtain ⟨⟨hhead, hline⟩, htrim⟩ := h
  cases hchars : text.toList with
  | nil =>
    rw [hchars] at hhead
    cases hhead
  | cons c others =>
    rw [hchars, List.head?_cons, Option.some.injEq] at hhead
    subst hhead
    have hothers : ∀ c ∈ others, (c != '\n') = true := by
      intro c hc
      rw [bne_iff_ne]
      rintro rfl
      rw [hchars] at hline
      simp [hc] at hline
    have hstops : Stops (· != '\n') rest := by
      intro c hc
      simp [hrest c hc]
    refine lexeme_read ?_
    rw [List.cons_append, exactly, bind_read _ (satisfying_read _ (by simp)),
      bind_read _ (run_read hothers hstops), pure_apply, ← hchars, htrim, String.ofList_toList]

theorem directive_refuses {text : List Char} (h : text.head? ≠ some '#') :
    directive.Refuses text := by
  refine lexeme_refuses (Refuses.bind (satisfying_refuses fun d hd => ?_) _)
  simp only [beq_eq_false_iff_ne, ne_eq]
  rintro rfl
  exact h hd

end Token

/-! ### Qualifiers -/

namespace Declaration

open Token

/-- The entries of a layout qualifier. -/
inductive LayoutEntry : String → Prop where
  | plain {name : String} (hname : Word.isWord name = true) : LayoutEntry name
  | valued {name number : String} (hname : Word.isWord name = true)
      (hnumber : IntText number.toList) : LayoutEntry (name ++ "=" ++ number)

theorem LayoutEntry.head {entry : String} (h : LayoutEntry entry) :
    ∃ c chars, entry.toList = c :: chars ∧ Word.isPart c = true := by
  cases h with
  | plain hname =>
    obtain ⟨c, chars, hchars, hc, -⟩ := exists_of_isWord hname
    exact ⟨c, chars, hchars, isPart_of_isStart hc⟩
  | @valued name number hname =>
    obtain ⟨c, chars, hchars, hc, -⟩ := exists_of_isWord hname
    exact ⟨c, chars ++ '=' :: number.toList, by simp [hchars], isPart_of_isStart hc⟩

/-- The text of a layout qualifier with the given entries. -/
def layoutText (entries : List String) : String :=
  "layout(" ++ String.intercalate "," entries ++ ")"

theorem layoutEntry_read {entry : String} {c : Char} (rest : List Char) (h : LayoutEntry entry)
    (hc : c = ',' ∨ c = ')') : layoutEntry (entry.toList ++ c :: rest) = .read entry (c :: rest) := by
  have hsolid : skipBlank (c :: rest) = c :: rest := by
    rcases hc with rfl | rfl <;> exact skipBlank_solid _ rfl
  cases h with
  | plain hname =>
    have hstops : Stops Word.isPart (c :: rest) := by
      rcases hc with rfl | rfl <;> exact stops_cons.mpr rfl
    have hnone : (do punct '='; intLiteral).Refuses (c :: rest) := by
      refine Refuses.bind (punct_refuses ?_) _
      rcases hc with rfl | rfl <;> simp
    rw [layoutEntry, bind_read _ (word_read hname hstops), hsolid,
      bind_read _ (optional_refuses hnone)]
    rfl
  | @valued name number hname hnumber =>
    have hstops : Stops continuesInt (c :: rest) := by
      rcases hc with rfl | rfl <;> exact stops_cons.mpr rfl
    have hvalue : (do punct '='; intLiteral) ('=' :: (number.toList ++ c :: rest)) =
        .read number (c :: rest) := by
      have hdigits : skipBlank (number.toList ++ c :: rest) = number.toList ++ c :: rest := by
        obtain ⟨d, others, hchars, hd⟩ := hnumber.head
        rw [hchars]
        exact skipBlank_solid _ (isSolid_of_isPart (isPart_of_isDigit hd))
      rw [bind_read _ (punct_read '=' _), hdigits, intLiteral_read hnumber hstops, hsolid,
        String.ofList_toList]
    have happend : (name ++ "=" ++ number).toList ++ c :: rest =
        name.toList ++ '=' :: (number.toList ++ c :: rest) := by simp
    rw [happend, layoutEntry, bind_read _ (word_read hname (stops_cons.mpr rfl)),
      skipBlank_solid _ rfl, bind_read _ (optional_read hvalue)]
    rfl

theorem takes_comma_layoutEntry : (do let _ ← punct ','; layoutEntry).Takes 1 :=
  (takes_punct ',').bind (fun _ => takes_layoutEntry) (by omega)

theorem toList_intercalate (first : String) (others : List String) :
    (String.intercalate "," (first :: others)).toList =
      first.toList ++ others.flatMap (fun entry => ',' :: entry.toList) := by
  induction others generalizing first with
  | nil =>
    have hone : String.intercalate "," [first] = first := rfl
    rw [hone, List.flatMap_nil, List.append_nil]
  | cons second others ih =>
    have hstep : String.intercalate "," (first :: second :: others) =
        String.intercalate "," ((first ++ "," ++ second) :: others) := rfl
    rw [hstep, ih]
    simp

theorem many_layoutEntry_read {others : List String} (rest : List Char)
    (h : ∀ entry ∈ others, LayoutEntry entry) :
    many (do let _ ← punct ','; layoutEntry)
        (others.flatMap (fun entry => ',' :: entry.toList) ++ ')' :: rest) =
      .read others (')' :: rest) := by
  induction others with
  | nil => exact many_refuses takes_comma_layoutEntry ((punct_refuses (by simp)).bind _)
  | cons entry others ih =>
    obtain ⟨hentry, hothers⟩ := List.forall_mem_cons.mp h
    rw [List.flatMap_cons, List.append_assoc]
    generalize hnext : others.flatMap (fun entry => ',' :: entry.toList) ++ ')' :: rest = next
      at ih
    have hhead : ∃ c tail, next = c :: tail ∧ (c = ',' ∨ c = ')') := by
      cases others with
      | nil => exact ⟨_, _, hnext.symm, Or.inr rfl⟩
      | cons => exact ⟨_, _, hnext.symm, Or.inl rfl⟩
    obtain ⟨c, tail, rfl, hc⟩ := hhead
    have hsolid : skipBlank (entry.toList ++ c :: tail) = entry.toList ++ c :: tail := by
      obtain ⟨d, chars, hchars, hd⟩ := hentry.head
      rw [hchars]
      exact skipBlank_solid _ (isSolid_of_isPart hd)
    refine many_read takes_comma_layoutEntry ?_ (ih hothers)
    rw [List.cons_append, bind_read _ (punct_read ',' _), hsolid, layoutEntry_read tail hentry hc]

theorem layoutQualifier_read {entries : List String} (rest : List Char) (hne : entries ≠ [])
    (h : ∀ entry ∈ entries, LayoutEntry entry) :
    layoutQualifier ((layoutText entries).toList ++ rest) =
      .read (layoutText entries) (skipBlank rest) := by
  obtain ⟨first, others, rfl⟩ := List.exists_cons_of_ne_nil hne
  obtain ⟨hfirst, hothers⟩ := List.forall_mem_cons.mp h
  have hchars : (layoutText (first :: others)).toList ++ rest = "layout".toList ++ '(' ::
      (first.toList ++ (others.flatMap (fun entry => ',' :: entry.toList) ++ ')' :: rest)) := by
    simp only [layoutText, String.toList_append, toList_intercalate]
    simp
  have hhead : ∃ c tail, others.flatMap (fun entry => ',' :: entry.toList) ++ ')' :: rest = c :: tail ∧
      (c = ',' ∨ c = ')') := by
    cases others with
    | nil => exact ⟨_, _, rfl, Or.inr rfl⟩
    | cons => exact ⟨_, _, rfl, Or.inl rfl⟩
  have hentry : layoutEntry
      (first.toList ++ (others.flatMap (fun entry => ',' :: entry.toList) ++ ')' :: rest)) =
        .read first (others.flatMap (fun entry => ',' :: entry.toList) ++ ')' :: rest) := by
    obtain ⟨c, tail, hnext, hc⟩ := hhead
    rw [hnext]
    exact layoutEntry_read tail hfirst hc
  have hsolid : ∀ after, skipBlank (first.toList ++ after) = first.toList ++ after := by
    intro after
    obtain ⟨d, chars, hchars, hd⟩ := hfirst.head
    rw [hchars]
    exact skipBlank_solid _ (isSolid_of_isPart hd)
  have hkeyword : keyword "layout" ("layout".toList ++ '(' ::
      (first.toList ++ (others.flatMap (fun entry => ',' :: entry.toList) ++ ')' :: rest))) =
        .read "layout" ('(' :: (first.toList ++
          (others.flatMap (fun entry => ',' :: entry.toList) ++ ')' :: rest))) := by
    refine guarded_read ?_ (by simp)
    rw [word_read (by decide) (stops_cons.mpr rfl), skipBlank_solid _ rfl]
  have hentries : separated1 (punct ',') layoutEntry
      (first.toList ++ (others.flatMap (fun entry => ',' :: entry.toList) ++ ')' :: rest)) =
        .read (first :: others) (')' :: rest) := by
    rw [separated1, bind_read _ hentry, bind_read _ (many_layoutEntry_read rest hothers),
      pure_apply]
  rw [hchars, layoutQualifier, bind_read _ hkeyword, bind_read _ (punct_read '(' _), hsolid,
    bind_read _ hentries, bind_read _ (punct_read ')' rest), pure_apply, layoutText]

/-- The text of a layout qualifier, without blanks. -/
def IsLayout (text : String) : Prop :=
  ∃ entries, entries ≠ [] ∧ (∀ entry ∈ entries, LayoutEntry entry) ∧ text = layoutText entries

theorem yields_layoutEntry : layoutEntry.Yields LayoutEntry := by
  have hword : word.Yields (fun name => Word.isWord name = true) :=
    fun _ _ _ hread => word_value hread
  have hnumber : intLiteral.Yields (fun number => IntText number.toList) :=
    fun _ _ _ hread => intLiteral_inv hread
  refine hword.bind fun name hname => ?_
  refine (Yields.optional ((yields_any (punct '=')).bind fun _ _ => hnumber)).bind
    fun value hvalue => ?_
  cases value with
  | none => exact yields_pure (.plain hname)
  | some number => exact yields_pure (.valued hname (hvalue number rfl))

theorem yields_layoutQualifier : layoutQualifier.Yields IsLayout := by
  refine (yields_any _).bind fun _ _ => (yields_any _).bind fun _ _ => ?_
  refine (yields_layoutEntry.separated1 _).bind fun entries hentries => ?_
  exact (yields_any _).bind fun _ _ => yields_pure ⟨entries, hentries.1, hentries.2, rfl⟩

theorem isWord_of_mem_qualifiers {text : String}
    (h : text ∈ Word.storageQualifiers ++ Word.precisionQualifiers) : Word.isWord text = true := by
  have hall : ∀ w ∈ Word.storageQualifiers ++ Word.precisionQualifiers, Word.isWord w = true := by
    decide
  exact hall text h

/-- The qualifiers of declarations: layouts and words. -/
theorem accepts_declarationQualifier {text : String} :
    declarationQualifier.accepts text = true ↔
      IsLayout text ∨ text ∈ Word.storageQualifiers ++ Word.precisionQualifiers := by
  rw [accepts, beq_iff_eq]
  constructor
  · intro h
    rcases orElse_inv h with h | ⟨-, h⟩
    · exact Or.inl (yields_layoutQualifier _ _ _ h)
    · exact Or.inr (wordIn_value h)
  · rintro (⟨entries, hne, hentries, rfl⟩ | hmem)
    · have hread := layoutQualifier_read [] hne hentries
      rw [List.append_nil, skipBlank_nil] at hread
      exact orElse_read _ hread
    · have hread := wordIn_read hmem (isWord_of_mem_qualifiers hmem) (stops_nil _)
      rw [List.append_nil, skipBlank_nil] at hread
      have hword := (guarded_inv hread).1
      refine orElse_refuses (Refuses.bind (guarded_refuses hword ?_) _) hread
      have hlayout : ∀ w ∈ Word.storageQualifiers ++ Word.precisionQualifiers,
          (w == "layout") = false := by decide
      exact hlayout text hmem

end Declaration

end GlslShrink
