import GlslShrink.Proofs.Reading.Literals

/-!
How far an expression goes on. The `continuation` of a text is the level at which an expression
could take it up: that of an operator, of an index or a selection, of an opening parenthesis, or
nothing. A reader of some level stops in front of every text of a lower level, so that what a
tighter level has read is what all looser levels down to the continuation read too.
-/

set_option autoImplicit false

namespace GlslShrink.Expression

open Reader Token

/-- The level at which an operator goes on after an operand. -/
def operatorLevel (operator : String) : Nat :=
  if operator = "++" ∨ operator = "--" then 16
  else if Precedence.isAssignment operator then Precedence.assignment
  else (Precedence.ofBinary? operator).getD 0

/-- The level at which an expression in front of the text would go on with it. -/
def continuation (text : List Char) : Nat :=
  match text with
  | '(' :: _ => 18
  | '.' :: _ => 17
  | '[' :: _ => 16
  | '?' :: _ => Precedence.conditional
  | ',' :: _ => Precedence.comma
  | _ =>
    match operator text with
    | .read operator _ => operatorLevel operator
    | .stuck _ => 0

variable {text rest : List Char} {x : Node}

theorem continuation_of_operator {op : String} (h : operator text = .read op rest) :
    continuation text = operatorLevel op := by
  have hne : ∀ c, isOperatorStart c = false → ∀ tail, text ≠ c :: tail := by
    rintro c hc tail rfl
    exact absurd (operator_refuses (stops_cons.mpr hc)) (not_refuses_of_read h)
  unfold continuation
  split
  · exact absurd rfl (hne '(' rfl _)
  · exact absurd rfl (hne '.' rfl _)
  · exact absurd rfl (hne '[' rfl _)
  · exact absurd rfl (hne '?' rfl _)
  · exact absurd rfl (hne ',' rfl _)
  · rw [h]

/-- Punctuation of a higher level does not come next. -/
theorem punct_refuses_of_continuation {c : Char}
    (h : ∀ tail, continuation text ≠ continuation (c :: tail)) : (punct c).Refuses text := by
  refine punct_refuses fun hhead => ?_
  obtain ⟨tail, rfl⟩ := List.head?_eq_some_iff.mp hhead
  exact h tail rfl

theorem update_refuses (h : continuation text < 16) : update.Refuses text := by
  rcases read_or_refuses update text with ⟨op, rest, hread⟩ | hrefuses
  · obtain ⟨hoperator, hop⟩ := operator_of_update hread
    have hlevel : operatorLevel op = 16 := if_pos hop
    rw [continuation_of_operator hoperator, hlevel] at h
    omega
  · exact hrefuses

theorem trailer_stops (base : Node) (h : continuation text < 16) :
    trailer expression base text = .read none text := by
  have hindex : (punct '[').Refuses text :=
    punct_refuses_of_continuation fun tail => by
      show continuation text ≠ 16
      omega
  have hfield : (punct '.').Refuses text :=
    punct_refuses_of_continuation fun tail => by
      show continuation text ≠ 17
      omega
  rw [trailer, branch_refuses _ _ hindex, branch_refuses _ _ hfield,
    branch_refuses _ _ (update_refuses h), pure_apply]

/-- The level of a binary operator is the level at which it goes on. -/
theorem operatorLevel_of_binary {op : String} {level : Nat}
    (h : Precedence.ofBinary? op = some level) : operatorLevel op = level := by
  have hupdate : ¬(op = "++" ∨ op = "--") := by
    rintro (rfl | rfl) <;> cases h
  have hassignment : Precedence.isAssignment op = false := by
    refine Bool.eq_false_iff.mpr fun hop => ?_
    simp only [Precedence.isAssignment, List.contains_eq_mem, List.mem_cons, List.not_mem_nil,
      or_false, decide_eq_true_eq] at hop
    rcases hop with rfl | rfl | rfl | rfl | rfl | rfl | rfl | rfl | rfl | rfl | rfl <;> cases h
  simp [operatorLevel, hupdate, hassignment, h]

theorem operatorLevel_of_assignment {op : String} (h : Precedence.isAssignment op = true) :
    operatorLevel op = Precedence.assignment := by
  have hupdate : ¬(op = "++" ∨ op = "--") := by
    rintro (rfl | rfl) <;> cases h
  simp [operatorLevel, hupdate, h]

theorem operatorFrom_refuses {least : Nat} (h : continuation text < least) :
    (operatorFrom least).Refuses text := by
  rcases read_or_refuses operator text with ⟨op, rest, hread⟩ | hrefuses
  · refine Refuses.bind_of_read hread ?_
    rw [continuation_of_operator hread] at h
    cases hlevel : Precedence.ofBinary? op with
    | none => exact ⟨rest, rfl⟩
    | some level =>
      rw [operatorLevel_of_binary hlevel] at h
      have hless : ¬ least ≤ level := by omega
      exact ⟨rest, by simp only [if_neg hless]; rfl⟩
  · exact hrefuses.bind _

theorem joined_stops {least : Nat} (left : Node) (h : continuation text < least) :
    joined (binary expression) least left text = .read none text := by
  rw [joined, branch_refuses _ _ (operatorFrom_refuses h), pure_apply]

theorem assignmentTo_refuses (target : Node) (h : continuation text < Precedence.assignment) :
    (assignmentTo target).Refuses text := by
  unfold assignmentTo
  split
  · rcases read_or_refuses operator text with ⟨op, rest, hread⟩ | hrefuses
    · refine guarded_refuses hread (Bool.eq_false_iff.mpr fun hop => ?_)
      rw [continuation_of_operator hread, operatorLevel_of_assignment hop] at h
      omega
    · exact hrefuses.guarded _
  · exact ⟨text, rfl⟩

theorem listed_stops (left : Node) (h : continuation text < Precedence.comma) :
    listed expression left text = .read none text := by
  have hcomma : (punct ',').Refuses text :=
    punct_refuses_of_continuation fun tail => by
      show continuation text ≠ Precedence.comma
      omega
  rw [listed, branch_refuses _ _ hcomma, pure_apply]

/-! ### From each level to the next looser one -/

theorem unary_of_trailed (hfirst : Stops isOperatorStart text)
    (h : trailed expression text = extend (trailer expression) x rest)
    (hrest : continuation rest < 16) : unary expression text = .read x rest := by
  rw [unary_eq, branch_refuses _ _ ((operator_refuses hfirst).guarded _), h,
    extend_stop trailer_steps (trailer_stops x hrest)]

theorem binary_of_unary (least : Nat) (h : unary expression text = .read x rest) :
    binary expression least text = extend (joined (binary expression) least) x rest := by
  rw [binary_eq, bind_read _ h]

theorem conditional_of_binary
    (h : binary expression Precedence.logicalOr text =
      extend (joined (binary expression) Precedence.logicalOr) x rest)
    (hrest : continuation rest < Precedence.conditional) :
    conditional expression text = .read x rest := by
  have hlevel : continuation rest < Precedence.logicalOr := Nat.lt_succ_of_lt hrest
  have hbinary : binary expression Precedence.logicalOr text = .read x rest := by
    rw [h, extend_stop (joined_steps _) (joined_stops x hlevel)]
  have hquestion : (punct '?').Refuses rest :=
    punct_refuses_of_continuation fun tail => by
      show continuation rest ≠ Precedence.conditional
      omega
  rw [conditional, bind_read _ hbinary, branch_refuses _ _ hquestion, pure_apply]

theorem assignment_of_conditional (h : conditional expression text = .read x rest)
    (hrest : continuation rest < Precedence.assignment) :
    assignment expression text = .read x rest := by
  rw [assignment, bind_read _ h, branch_refuses _ _ (assignmentTo_refuses x hrest), pure_apply]

theorem commaList_of_assignment (h : assignment expression text = .read x rest) :
    commaList expression text = extend (listed expression) x rest :=
  bind_read _ h

theorem expression_of_commaList
    (h : commaList expression text = extend (listed expression) x rest)
    (hrest : continuation rest < Precedence.comma) :
    expression .withComma text = .read x rest := by
  rw [expression_withComma, h, extend_stop listed_steps (listed_stops x hrest)]

/-! ### Words at the start -/

theorem exists_of_word {w : String} (h : word text = .read w rest) :
    ∃ c tail, text = c :: tail ∧ Word.isStart c = true := by
  obtain ⟨next, h, -⟩ := lexeme_inv h
  obtain ⟨c, tail, hread, -⟩ := bind_inv h
  obtain ⟨rfl, hc⟩ := satisfying_inv hread
  exact ⟨c, tail, rfl, hc⟩

theorem isStart_ne {c d : Char} (hc : Word.isStart c = true) (hd : Word.isStart d = false) :
    c ≠ d := by
  rintro rfl
  rw [hd] at hc
  cases hc

/-- Neither an operator nor a number starts like a word. -/
theorem stops_of_word {w : String} (h : word text = .read w rest) :
    Stops isOperatorStart text ∧ Stops (fun c => c.isDigit || c == '.') text := by
  obtain ⟨c, tail, rfl, hc⟩ := exists_of_word h
  constructor
  · refine stops_cons.mpr (Bool.eq_false_iff.mpr fun hop => ?_)
    have hall : ∀ d ∈ ['<', '>', '+', '-', '=', '!', '&', '|', '^', '*', '/', '%', '~'],
        Word.isStart d = false := forall_mem_of_all (by decide)
    exact isStart_ne hc (hall c (by simpa [isOperatorStart] using hop)) rfl
  · refine stops_cons.mpr (Bool.eq_false_iff.mpr fun hnumber => ?_)
    rw [Bool.or_eq_true, beq_iff_eq] at hnumber
    rcases hnumber with hdigit | rfl
    · simp only [Word.isStart, isAlpha_iff, Char.isDigit, Bool.or_eq_true, Bool.and_eq_true,
        decide_eq_true_eq, beq_iff_eq, UInt32.le_iff_toNat_le] at hc hdigit
      have hzero : ('0' : Char).val.toNat = 48 := rfl
      have hnine : ('9' : Char).val.toNat = 57 := rfl
      have hupper : ('A' : Char).val.toNat = 65 := rfl
      have hlower : ('a' : Char).val.toNat = 97 := rfl
      rcases hc with (hc | hc) | rfl
      · omega
      · omega
      · exact absurd hdigit (by decide)
    · cases hc

/-- Whether an expression can start with this character. -/
def startsExpression (c : Char) : Bool :=
  isOperatorStart c || Word.isPart c || ['.', '('].contains c

/-- A text at which no operator and no operand starts holds no expression in front. -/
theorem expression_refuses_of_primary (hoperator : Stops isOperatorStart text)
    (hprimary : (primary expression).Refuses text) (breadth : Breadth) :
    (expression breadth).Refuses text := by
  have hunary : (unary expression).Refuses text := by
    obtain ⟨place, hplace⟩ := hprimary.bind (extend (trailer expression))
    refine ⟨place, ?_⟩
    rw [unary_eq, branch_refuses _ _ ((operator_refuses hoperator).guarded _)]
    exact hplace
  have hconditional : (conditional expression).Refuses text := by
    refine Refuses.bind ?_ _
    rw [binary_eq]
    exact hunary.bind _
  have hassignment : (assignment expression).Refuses text := hconditional.bind _
  cases breadth with
  | withComma =>
    rw [expression_withComma]
    exact hassignment.bind _
  | withoutComma =>
    rw [expression_withoutComma]
    exact hassignment

theorem expression_refuses (breadth : Breadth) (h : Stops startsExpression text) :
    (expression breadth).Refuses text := by
  have hoperator : Stops isOperatorStart text := h.imp fun c hc => by simp [startsExpression, hc]
  have hword : word.Refuses text :=
    word_refuses (h.imp fun c hc => by simp [startsExpression, isPart_of_isStart hc])
  have hnumber : Stops (fun c => c.isDigit || c == '.') text := by
    refine h.imp fun c hc => ?_
    rw [Bool.or_eq_true, beq_iff_eq] at hc
    rcases hc with hc | rfl
    · simp [startsExpression, isPart_of_isDigit hc]
    · rfl
  have hparen : (punct '(').Refuses text := by
    refine punct_refuses fun hhead => ?_
    exact absurd (h '(' hhead) (by decide)
  obtain ⟨hfloat, hint⟩ := numbers_refuse hnumber
  have hidentifier : identifier.Refuses text := hword.guarded _
  have hprimary : (primary expression).Refuses text :=
    (hfloat.bind _).orElse ((hint.bind _).orElse (((hword.guarded _).bind _).orElse
      (((hword.guarded _).bind _).orElse ((hidentifier.bind _).orElse
        ((hidentifier.bind _).orElse (hparen.bind _))))))
  exact expression_refuses_of_primary hoperator hprimary breadth

theorem keyword_refuses_of_word {w expected : String} (h : word text = .read w rest)
    (hne : w ≠ expected) : (keyword expected).Refuses text :=
  guarded_refuses h (beq_eq_false_iff_ne.mpr hne)

theorem primary_identifier {w : String} (h : identifier text = .read w rest)
    (hrest : rest.head? ≠ some '(') : primary expression text = .read (.identifier w) rest := by
  obtain ⟨hword, hname⟩ := guarded_inv h
  obtain ⟨hfloat, hint⟩ := numbers_refuse (stops_of_word hword).2
  have hne : ∀ k ∈ ["true", "false"], w ≠ k := by
    rintro k hk rfl
    have hall : ∀ k ∈ ["true", "false"], Word.isStructural k = true := by decide
    simp [hall w hk] at hname
  refine orElse_refuses (hfloat.bind _) (orElse_refuses (hint.bind _) (orElse_refuses ?_
    (orElse_refuses ?_ (orElse_refuses ?_ (orElse_read _ ?_)))))
  · exact (keyword_refuses_of_word hword (hne "true" (by simp))).bind _
  · exact (keyword_refuses_of_word hword (hne "false" (by simp))).bind _
  · exact Refuses.bind_of_read h ((punct_refuses hrest).bind _)
  · rw [bind_read _ h, pure_apply]

/-- A name that nothing goes on with is an expression of its own, at every breadth. -/
theorem expression_identifier {w : String} (h : identifier text = .read w rest)
    (hrest : continuation rest = 0) (breadth : Breadth) :
    expression breadth text = .read (.identifier w) rest := by
  have hhead : rest.head? ≠ some '(' := by
    intro hhead
    obtain ⟨tail, rfl⟩ := List.head?_eq_some_iff.mp hhead
    cases hrest
  have htrailed : trailed expression text = extend (trailer expression) (.identifier w) rest :=
    bind_read _ (primary_identifier h hhead)
  have hunary := unary_of_trailed (stops_of_word (guarded_inv h).1).1 htrailed (by omega)
  have hconditional := conditional_of_binary (binary_of_unary _ hunary)
    (by rw [hrest]; decide)
  have hassignment := assignment_of_conditional hconditional (by rw [hrest]; decide)
  cases breadth with
  | withoutComma => rw [expression_withoutComma, hassignment]
  | withComma =>
    exact expression_of_commaList (commaList_of_assignment hassignment) (by rw [hrest]; decide)

end GlslShrink.Expression
