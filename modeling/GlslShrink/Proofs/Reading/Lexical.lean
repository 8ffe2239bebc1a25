import GlslShrink.Proofs.Printing.Printable
import GlslShrink.Proofs.Reading.Progress

/-!
What the token readers do on a text whose first token is known. For every kind of token there is a
lemma for reading it (`word_read`, `punct_read`, `operator_read`, `intLiteral_read`, ...), which
asks only that the text after the token does not go on with it, and a lemma for refusing a text
that starts differently. The literals are described by what they are made of (`IntText`,
`FloatText`): these are the texts that the readers accept whole, and the only values they give.
-/

set_option autoImplicit false

namespace GlslShrink

/-- What holds of every entry of a list, as it is evaluated. -/
theorem forall_mem_of_all {α : Type} {items : List α} {p : α → Prop} [DecidablePred p]
    (h : items.all (fun item => decide (p item)) = true) : ∀ item ∈ items, p item := by
  simpa using h

theorem isAlpha_iff {c : Char} : c.isAlpha = true ↔
    ('A'.val ≤ c.val ∧ c.val ≤ 'Z'.val) ∨ ('a'.val ≤ c.val ∧ c.val ≤ 'z'.val) := by
  have hcases : c.isAlpha = (c.isUpper || c.isLower) := rfl
  have hupper : c.isUpper = decide (c.val ≥ 'A'.val ∧ c.val ≤ 'Z'.val) := rfl
  have hlower : c.isLower = (decide (c.val ≥ 'a'.val) && decide (c.val ≤ 'z'.val)) := rfl
  rw [hcases, hupper, hlower]
  simp only [Bool.or_eq_true, Bool.and_eq_true, decide_eq_true_eq, ge_iff_le]

namespace Reader

/-- The text is used up or goes on with a character that fails the test. -/
def Stops (test : Char → Bool) (text : List Char) : Prop :=
  ∀ c ∈ text.head?, test c = false

theorem stops_nil (test : Char → Bool) : Stops test [] :=
  fun _ h => by cases h

theorem stops_cons {test : Char → Bool} {c : Char} {rest : List Char} :
    Stops test (c :: rest) ↔ test c = false := by
  simp [Stops]

theorem Stops.imp {test test' : Char → Bool} {text : List Char} (h : Stops test text)
    (himp : ∀ c, test' c = true → test c = true) : Stops test' text := by
  intro c hc
  have hfalse := h c hc
  cases htest : test' c with
  | false => rfl
  | true => rw [himp c htest] at hfalse; cases hfalse

theorem satisfying_read {test : Char → Bool} {c : Char} (rest : List Char) (hc : test c = true) :
    satisfying test (c :: rest) = .read c rest := by
  simp only [satisfying, hc, if_true]

theorem satisfying_refuses {test : Char → Bool} {text : List Char} (h : Stops test text) :
    (satisfying test).Refuses text := by
  cases text with
  | nil => exact ⟨[], rfl⟩
  | cons c rest =>
    refine ⟨c :: rest, ?_⟩
    simp only [satisfying, stops_cons.mp h, Bool.false_eq_true, if_false]

theorem takeWhile_eq_nil_of_stops {test : Char → Bool} {rest : List Char} (h : Stops test rest) :
    rest.takeWhile test = [] ∧ rest.dropWhile test = rest := by
  cases rest with
  | nil => exact ⟨rfl, rfl⟩
  | cons c rest => simp [stops_cons.mp h]

theorem run_read {test : Char → Bool} {chars rest : List Char}
    (hchars : ∀ c ∈ chars, test c = true) (hrest : Stops test rest) :
    run test (chars ++ rest) = .read chars rest := by
  obtain ⟨htake, hdrop⟩ := takeWhile_eq_nil_of_stops hrest
  rw [run, List.takeWhile_append_of_pos hchars, List.dropWhile_append_of_pos hchars, htake, hdrop,
    List.append_nil]

theorem run1_read {test : Char → Bool} {chars rest : List Char} (hne : chars ≠ [])
    (hchars : ∀ c ∈ chars, test c = true) (hrest : Stops test rest) :
    run1 test (chars ++ rest) = .read chars rest := by
  obtain ⟨c, chars, rfl⟩ := List.exists_cons_of_ne_nil hne
  rw [run1, List.cons_append, bind_read _ (satisfying_read _ (hchars c (by simp))),
    bind_read _ (run_read (fun d hd => hchars d (by simp [hd])) hrest), pure_apply]

theorem run1_refuses {test : Char → Bool} {text : List Char} (h : Stops test text) :
    (run1 test).Refuses text :=
  (satisfying_refuses h).bind _

theorem satisfying_inv {test : Char → Bool} {text rest : List Char} {c : Char}
    (h : satisfying test text = .read c rest) : text = c :: rest ∧ test c = true := by
  cases text with
  | nil => cases h
  | cons d others =>
    by_cases hd : test d = true
    · rw [satisfying_read others hd] at h
      cases h
      exact ⟨rfl, hd⟩
    · have hstops : Stops test (d :: others) := stops_cons.mpr (by simpa using hd)
      exact absurd (satisfying_refuses hstops) (not_refuses_of_read h)

theorem run_inv {test : Char → Bool} {text chars rest : List Char}
    (h : run test text = .read chars rest) :
    text = chars ++ rest ∧ (∀ c ∈ chars, test c = true) ∧ Stops test rest := by
  cases h
  refine ⟨List.takeWhile_append_dropWhile.symm, List.all_eq_true.mp List.all_takeWhile, ?_⟩
  intro c hc
  have hnot := List.head?_dropWhile_not test text
  rw [Option.mem_def.mp hc] at hnot
  exact hnot

theorem run1_inv {test : Char → Bool} {text chars rest : List Char}
    (h : run1 test text = .read chars rest) :
    text = chars ++ rest ∧ chars ≠ [] ∧ (∀ c ∈ chars, test c = true) ∧ Stops test rest := by
  obtain ⟨c, next, hfirst, h⟩ := bind_inv h
  obtain ⟨others, after, hothers, h⟩ := bind_inv h
  cases h
  obtain ⟨rfl, hc⟩ := satisfying_inv hfirst
  obtain ⟨rfl, hall, hstops⟩ := run_inv hothers
  refine ⟨rfl, by simp, fun d hd => ?_, hstops⟩
  rcases List.mem_cons.mp hd with rfl | hd
  · exact hc
  · exact hall d hd

theorem notNext_inv {test : Char → Bool} {text rest : List Char}
    (h : notNext test text = .read () rest) : rest = text ∧ Stops test text := by
  cases text with
  | nil =>
    cases h
    exact ⟨rfl, stops_nil test⟩
  | cons c others =>
    simp only [notNext] at h
    split at h
    · cases h
    · rename_i hc
      cases h
      exact ⟨rfl, stops_cons.mpr (by simpa using hc)⟩

theorem notNext_read {test : Char → Bool} {text : List Char} (h : Stops test text) :
    notNext test text = .read () text := by
  cases text with
  | nil => rfl
  | cons c rest => simp only [notNext, stops_cons.mp h, Bool.false_eq_true, if_false]

end Reader

open Reader

/-! ### Blanks -/

namespace Token

/-- A character that no blank and no comment starts with. -/
def isSolid (c : Char) : Bool :=
  !Text.isBlank c && c != '/'

theorem skipBlank_solid {c : Char} (rest : List Char) (hc : isSolid c = true) :
    skipBlank (c :: rest) = c :: rest := by
  simp only [isSolid, Bool.and_eq_true, Bool.not_eq_true', bne_iff_ne, ne_eq] at hc
  unfold skipBlank
  split <;> simp_all

theorem skipBlank_slash {rest : List Char} (h : Stops (fun c => c == '/' || c == '*') rest) :
    skipBlank ('/' :: rest) = '/' :: rest := by
  rw [skipBlank.eq_def]
  split
  · simp_all
  · simp_all [stops_cons]
  · simp_all [stops_cons]
  · rename_i heq
    cases heq
    rfl

theorem skipBlank_blank {c : Char} (rest : List Char) (hc : Text.isBlank c = true) :
    skipBlank (c :: rest) = skipBlank rest := by
  have hslash : c ≠ '/' := by rintro rfl; cases hc
  rw [skipBlank.eq_def]
  split <;> simp_all

theorem skipBlank_blanks {blanks : List Char} (rest : List Char)
    (h : ∀ c ∈ blanks, Text.isBlank c = true) : skipBlank (blanks ++ rest) = skipBlank rest := by
  induction blanks with
  | nil => rfl
  | cons c blanks ih =>
    rw [List.cons_append, skipBlank_blank _ (h c (by simp)), ih fun d hd => h d (by simp [hd])]

theorem skipBlank_nil : skipBlank [] = [] := by
  rw [skipBlank]

/-- Blanks and comments in front hide no character of a class that has none of theirs. -/
theorem stops_of_skipBlank {test : Char → Bool} {text : List Char}
    (hblank : ∀ c ∈ [' ', '\t', '\r', '\n'], test c = false) (hslash : test '/' = false)
    (h : Stops test (skipBlank text)) : Stops test text := by
  cases text with
  | nil => exact stops_nil test
  | cons c rest =>
    refine stops_cons.mpr ?_
    by_cases hsolid : isSolid c = true
    · rw [skipBlank_solid _ hsolid] at h
      exact stops_cons.mp h
    · simp only [isSolid, Text.isBlank, Bool.and_eq_true, Bool.not_eq_true', Bool.or_eq_false_iff,
        beq_eq_false_iff_ne, bne_iff_ne] at hsolid
      by_cases hc : c = '/'
      · rw [hc, hslash]
      · refine hblank c ?_
        simp only [List.mem_cons, List.not_mem_nil, or_false]
        grind

theorem lexeme_read {α : Type} {p : Reader α} {text rest : List Char} {a : α}
    (h : p text = .read a rest) : lexeme p text = .read a (skipBlank rest) := by
  rw [lexeme, bind_read _ h]
  rfl

theorem lexeme_refuses {α : Type} {p : Reader α} {text : List Char} (h : p.Refuses text) :
    (lexeme p).Refuses text :=
  h.bind _

/-- What a lexeme reads, its reader reads. -/
theorem lexeme_inv {α : Type} {p : Reader α} {text rest : List Char} {a : α}
    (h : lexeme p text = .read a rest) : ∃ next, p text = .read a next ∧ rest = skipBlank next := by
  rcases read_or_refuses p text with ⟨b, next, hread⟩ | hrefuses
  · rw [lexeme_read hread] at h
    cases h
    exact ⟨next, hread, rfl⟩
  · exact absurd (lexeme_refuses hrefuses) (not_refuses_of_read h)

/-! ### Words -/

theorem exists_of_isWord {text : String} (h : Word.isWord text = true) :
    ∃ c others, text.toList = c :: others ∧ Word.isStart c = true ∧
      ∀ d ∈ others, Word.isPart d = true := by
  unfold Word.isWord at h
  split at h
  · rename_i c others hchars
    rw [Bool.and_eq_true, List.all_eq_true] at h
    exact ⟨c, others, hchars, h⟩
  · cases h

theorem word_read {text : String} {rest : List Char} (hword : Word.isWord text = true)
    (hrest : Stops Word.isPart rest) :
    word (text.toList ++ rest) = .read text (skipBlank rest) := by
  obtain ⟨c, others, hchars, hc, hothers⟩ := exists_of_isWord hword
  rw [hchars]
  refine lexeme_read ?_
  rw [List.cons_append, bind_read _ (satisfying_read _ hc), bind_read _ (run_read hothers hrest),
    pure_apply, ← hchars, String.ofList_toList]

theorem word_refuses {text : List Char} (h : Stops Word.isStart text) : word.Refuses text :=
  lexeme_refuses ((satisfying_refuses h).bind _)

theorem isPart_of_isStart {c : Char} (h : Word.isStart c = true) : Word.isPart c = true := by
  simp only [Word.isStart, Word.isPart, Char.isAlphanum, Bool.or_eq_true] at h ⊢
  rcases h with h | h
  · exact Or.inl (Or.inl h)
  · exact Or.inr h

theorem word_value {text rest : List Char} {w : String} (h : word text = .read w rest) :
    Word.isWord w = true := by
  obtain ⟨next, hread, -⟩ := lexeme_inv h
  obtain ⟨c, next', hfirst, hread⟩ := bind_inv hread
  obtain ⟨others, next'', hothers, hread⟩ := bind_inv hread
  cases hread
  have hparts := (run_inv hothers).2.1
  simp only [Word.isWord, String.toList_ofList, (satisfying_inv hfirst).2, Bool.true_and]
  exact List.all_eq_true.mpr hparts

theorem wordIn_read {expected : List String} {text : String} {rest : List Char}
    (hmem : text ∈ expected) (hword : Word.isWord text = true) (hrest : Stops Word.isPart rest) :
    wordIn expected (text.toList ++ rest) = .read text (skipBlank rest) :=
  guarded_read (word_read hword hrest) (by simpa using hmem)

theorem wordIn_value {expected : List String} {text rest : List Char} {w : String}
    (h : wordIn expected text = .read w rest) : w ∈ expected := by
  simpa using (guarded_inv h).2

/-- Of a list of words, exactly those words are accepted. -/
theorem accepts_wordIn {expected : List String} {text : String}
    (hall : ∀ w ∈ expected, Word.isWord w = true) :
    (wordIn expected).accepts text = true ↔ text ∈ expected := by
  rw [accepts, beq_iff_eq]
  constructor
  · exact wordIn_value
  · intro hmem
    have hread := wordIn_read hmem (hall text hmem) (stops_nil _)
    rwa [List.append_nil, skipBlank_nil] at hread

theorem identifier_value {text rest : List Char} {w : String}
    (h : identifier text = .read w rest) : Word.isName w = true := by
  obtain ⟨hread, htest⟩ := guarded_inv h
  rw [Word.isName, word_value hread, htest]
  rfl

/-! ### Punctuation -/

theorem punct_read (c : Char) (rest : List Char) :
    punct c (c :: rest) = .read () (skipBlank rest) :=
  lexeme_read (bind_read _ (satisfying_read rest (by simp)))

theorem punct_refuses {c : Char} {text : List Char} (h : text.head? ≠ some c) :
    (punct c).Refuses text := by
  refine lexeme_refuses (Refuses.bind (satisfying_refuses fun d hd => ?_) _)
  simp only [beq_eq_false_iff_ne, ne_eq]
  rintro rfl
  exact h hd

theorem punct_inv {c : Char} {text rest : List Char} (h : punct c text = .read () rest) :
    text.head? = some c := by
  by_cases hhead : text.head? = some c
  · exact hhead
  · exact absurd (punct_refuses hhead) (not_refuses_of_read h)

theorem equals_read {rest : List Char} (h : rest.head? ≠ some '=') :
    equals ('=' :: rest) = .read () (skipBlank rest) := by
  refine lexeme_read ?_
  rw [exactly, bind_read _ (satisfying_read rest (by simp))]
  refine notNext_read fun c hc => ?_
  simp only [beq_eq_false_iff_ne, ne_eq]
  rintro rfl
  exact h hc

theorem equals_refuses {text : List Char} (h : text.head? ≠ some '=') : equals.Refuses text := by
  refine lexeme_refuses (Refuses.bind (satisfying_refuses fun d hd => ?_) _)
  simp only [beq_eq_false_iff_ne, ne_eq]
  rintro rfl
  exact h hd

/-! ### Operators -/

/-- A character that can stand first in an operator. -/
def isOperatorStart (c : Char) : Bool :=
  ['<', '>', '+', '-', '=', '!', '&', '|', '^', '*', '/', '%', '~'].contains c

theorem oneOf_refuses {spellings : List (List Char)} {text : List Char}
    (h : ∀ spelling ∈ spellings, Text.afterStart? spelling text = none) :
    (oneOf spellings).Refuses text := by
  induction spellings with
  | nil => exact ⟨text, rfl⟩
  | cons spelling others ih =>
    obtain ⟨place, hplace⟩ := ih fun s hs => h s (by simp [hs])
    exact ⟨place, by simp only [oneOf, h spelling (by simp), hplace]⟩

/-- Every operator has a first character, one that operators start with. -/
theorem head_of_mem_operators {spelling : List Char} (h : spelling ∈ operators) :
    ∃ c rest, spelling = c :: rest ∧ isOperatorStart c = true := by
  have hall : operators.all (fun s => s.head?.any isOperatorStart) = true := by decide
  have hany := List.all_eq_true.mp hall spelling h
  cases spelling with
  | nil => cases hany
  | cons c rest => exact ⟨c, rest, rfl, hany⟩

theorem operator_refuses {text : List Char} (h : Stops isOperatorStart text) :
    operator.Refuses text := by
  refine lexeme_refuses (oneOf_refuses fun spelling hspelling => ?_)
  obtain ⟨c, others, rfl, hc⟩ := head_of_mem_operators hspelling
  cases text with
  | nil => rfl
  | cons d rest =>
    have hne : c ≠ d := by
      rintro rfl
      rw [stops_cons.mp h] at hc
      cases hc
    simp only [Text.afterStart?, if_neg hne]

/-- A character that an operator can go on with, apart from `++` and `--`. -/
def isOperatorPart (c : Char) : Bool :=
  ['=', '<', '>', '&', '|', '^'].contains c

/-- Whether a character makes an operator longer. -/
def goesOn (spelling : List Char) (c : Char) : Bool :=
  isOperatorPart c || (spelling == ['+'] && c == '+') || (spelling == ['-'] && c == '-')

/-- Whether a spelling can be tried before another one. The other one must not start with it, and if
it starts with the other one, then its next character makes the other one longer. -/
def triedBefore (first second : List Char) : Bool :=
  !first.isPrefixOf second &&
    (!second.isPrefixOf first || (first.drop second.length).head?.any (goesOn second))

theorem operators_pairwise :
    operators.Pairwise (fun first second => triedBefore first second = true) := by
  decide

theorem afterStart?_self (start rest : List Char) :
    Text.afterStart? start (start ++ rest) = some rest := by
  induction start with
  | nil => cases rest <;> rfl
  | cons c start ih => rw [List.cons_append, Text.afterStart?, if_pos rfl, ih]

theorem afterStart?_eq_none {first second rest : List Char} (h : triedBefore first second = true)
    (hrest : Stops (goesOn second) rest) : Text.afterStart? first (second ++ rest) = none := by
  have hstarts (start more : List Char) : start.isPrefixOf (start ++ more) = true :=
    List.isPrefixOf_iff_prefix.mpr (List.prefix_append start more)
  rw [triedBefore, Bool.and_eq_true, Bool.not_eq_true', Bool.or_eq_true, Bool.not_eq_true'] at h
  obtain ⟨hpart, hlonger⟩ := h
  refine Option.eq_none_iff_forall_ne_some.mpr fun more hmore => ?_
  rcases List.append_eq_append_iff.mp (afterStart?_eq_some hmore) with
    ⟨between, rfl, rfl⟩ | ⟨between, rfl, -⟩
  · cases between with
    | nil =>
      have hself := hstarts second []
      rw [List.append_nil] at hself hpart
      rw [hself] at hpart
      cases hpart
    | cons c between =>
      have hc : goesOn second c = false := stops_cons.mp hrest
      simp [hc, hstarts] at hlonger
  · rw [hstarts] at hpart
    cases hpart

/-- The first of the spellings that the text starts with is read. -/
theorem oneOf_read {before after : List (List Char)} {spelling text rest : List Char}
    (hbefore : ∀ first ∈ before, Text.afterStart? first text = none)
    (h : Text.afterStart? spelling text = some rest) :
    oneOf (before ++ spelling :: after) text = .read (String.ofList spelling) rest := by
  induction before with
  | nil => simp only [List.nil_append, oneOf, h]
  | cons first before ih =>
    obtain ⟨hfirst, hbefore⟩ := List.forall_mem_cons.mp hbefore
    simp only [List.cons_append, oneOf, hfirst, ih hbefore]

/-- An operator is read whole if the text after it does not make it longer. -/
theorem oneOf_operators_read {spelling rest : List Char} (hspelling : spelling ∈ operators)
    (hpart : Stops isOperatorPart rest) (hplus : spelling = ['+'] → rest.head? ≠ some '+')
    (hminus : spelling = ['-'] → rest.head? ≠ some '-') :
    oneOf operators (spelling ++ rest) = .read (String.ofList spelling) rest := by
  have hends : Stops (goesOn spelling) rest := by
    intro c hc
    simp only [goesOn, hpart c hc, Bool.false_or, Bool.or_eq_false_iff, Bool.and_eq_false_imp,
      beq_iff_eq, beq_eq_false_iff_ne]
    exact ⟨fun h heq => hplus h (heq ▸ hc), fun h heq => hminus h (heq ▸ hc)⟩
  obtain ⟨before, after, hsplit⟩ := List.append_of_mem hspelling
  have hpairs := operators_pairwise
  rw [hsplit] at hpairs ⊢
  refine oneOf_read (fun first hfirst => ?_) (afterStart?_self spelling rest)
  exact afterStart?_eq_none
    ((List.pairwise_append.mp hpairs).2.2 first hfirst spelling List.mem_cons_self) hends

theorem mem_operators_of_read {text rest : List Char} {op : String}
    (h : operator text = .read op rest) : op.toList ∈ operators := by
  obtain ⟨next, hread, -⟩ := lexeme_inv h
  clear h
  have hmem : ∀ spellings : List (List Char), oneOf spellings text = .read op next →
      op.toList ∈ spellings := by
    intro spellings hread
    induction spellings with
    | nil => cases hread
    | cons spelling others ih =>
      simp only [oneOf] at hread
      split at hread
      · cases hread
        simp
      · exact List.mem_cons_of_mem _ (ih hread)
  exact hmem operators hread

/-- `++` and `--` are read alike with and without the other operators. -/
theorem operator_of_update {text rest : List Char} {op : String} (h : update text = .read op rest) :
    operator text = .read op rest ∧ (op = "++" ∨ op = "--") := by
  obtain ⟨next, hread, rfl⟩ := lexeme_inv h
  have hsplit : (text = '+' :: '+' :: next ∧ op = "++") ∨ (text = '-' :: '-' :: next ∧ op = "--") := by
    rcases text with _ | ⟨c, _ | ⟨d, tail⟩⟩
    · cases hread
    · simp only [oneOf, Text.afterStart?] at hread
      split at hread <;> simp_all
    · simp only [oneOf, Text.afterStart?] at hread
      grind
  rcases hsplit with ⟨rfl, rfl⟩ | ⟨rfl, rfl⟩
  · exact ⟨lexeme_read rfl, Or.inl rfl⟩
  · exact ⟨lexeme_read rfl, Or.inr rfl⟩

theorem update_read {op : String} (rest : List Char) (h : op = "++" ∨ op = "--") :
    update (op.toList ++ rest) = .read op (skipBlank rest) := by
  rcases h with rfl | rfl
  · exact lexeme_read rfl
  · exact lexeme_read rfl

end Token

end GlslShrink
