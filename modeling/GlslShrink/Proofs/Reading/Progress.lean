import GlslShrink.Proofs.Reading.Recursion
import GlslShrink.Reading.Source

/-!
Every reader of the grammar takes at least one character, and its recursive readers solve the
equations by which they are described: `expression_withComma`, `unary_eq`, `binary_eq`,
`declaration_eq`, `statement_eq`.
-/

set_option autoImplicit false

namespace GlslShrink

open Reader

namespace Reader

variable {α β : Type}

theorem Takes.bind {c d e : Nat} {p : Reader α} {f : α → Reader β} (hp : p.Takes c)
    (hf : ∀ a, (f a).Takes d) (he : e ≤ c + d) : (p >>= f).Takes e :=
  takes_of_agree fun n => (hp.agree n).bind (fun a => (hf a).agree _) he

theorem Takes.branch {c d e : Nat} {p : Reader α} {f : α → Reader β} {o : Reader β}
    (hp : p.Takes c) (hf : ∀ a, (f a).Takes d) (ho : o.Takes e) (he : e ≤ c + d) :
    (p.branch f o).Takes e :=
  takes_of_agree fun n => (hp.agree n).branch (fun a => (hf a).agree _) (ho.agree n) he

theorem Takes.orElse {c : Nat} {p q : Reader α} (hp : p.Takes c) (hq : q.Takes c) :
    (p <|> q).Takes c :=
  takes_of_agree fun n => (hp.agree n).orElse (hq.agree n)

theorem Takes.guarded {c : Nat} {p : Reader α} (hp : p.Takes c) (test : α → Bool) :
    (p.guarded test).Takes c :=
  takes_of_agree fun n => (hp.agree n).guarded test

theorem Takes.optional {c : Nat} {p : Reader α} (hp : p.Takes c) : p.optional.Takes 0 :=
  takes_of_agree fun n => (hp.agree n).optional

theorem Takes.ahead {c : Nat} {p : Reader α} (hp : p.Takes c) : p.ahead.Takes 0 :=
  takes_of_agree fun n => (hp.agree n).ahead

theorem Takes.separated1 {s : Reader β} {p : Reader α} (hs : s.Takes 1) (hp : p.Takes 1) :
    (separated1 s p).Takes 1 :=
  takes_of_agree fun n => (hp.agree n).separated1 hs

theorem takes_pure (a : α) : (pure a : Reader α).Takes 0 :=
  takes_of_agree fun n => agree_pure n a

theorem takes_refuse (cost : Nat) : (refuse : Reader α).Takes cost :=
  takes_of_agree fun n => agree_refuse n cost

theorem takes_satisfying (test : Char → Bool) : (satisfying test).Takes 1 := by
  intro text a rest h
  cases text with
  | nil => cases h
  | cons c others =>
    simp only [satisfying] at h
    split at h
    · cases h
      simp
    · cases h

theorem takes_exactly (c : Char) : (exactly c).Takes 1 :=
  takes_satisfying _

theorem takes_run (test : Char → Bool) : (run test).Takes 0 := by
  intro text a rest h
  cases h
  exact Token.length_dropWhile_le test text

theorem takes_run1 (test : Char → Bool) : (run1 test).Takes 1 :=
  (takes_satisfying test).bind
    (fun _ => (takes_run test).bind (fun _ => takes_pure _) (Nat.le_refl (0 + 0)))
    (Nat.le_refl (1 + 0))

theorem takes_notNext (test : Char → Bool) : (notNext test).Takes 0 := by
  intro text a rest h
  cases text with
  | nil =>
    cases h
    simp
  | cons c others =>
    simp only [notNext] at h
    split at h
    · cases h
    · cases h
      simp

end Reader

/-! ### Tokens -/

namespace Token

theorem length_skipBlank_le (text : List Char) : (skipBlank text).length ≤ text.length := by
  fun_induction skipBlank text with
  | case1 => simp
  | case2 rest ih =>
    have := length_dropWhile_le (· != '\n') rest
    simp only [List.length_cons]
    omega
  | case3 rest after hfound ih =>
    have := length_afterComment?_lt hfound
    simp only [List.length_cons]
    omega
  | case4 rest hfound => simp
  | case5 c rest _ _ hblank ih =>
    simp only [List.length_cons]
    omega
  | case6 c rest _ _ hblank => simp

theorem takes_blank : blank.Takes 0 := by
  intro text a rest h
  cases h
  exact length_skipBlank_le text

theorem takes_lexeme {α : Type} {c : Nat} {p : Reader α} (hp : p.Takes c) : (lexeme p).Takes c :=
  hp.bind (fun _ => takes_blank.bind (fun _ => takes_pure _) (Nat.le_refl (0 + 0)))
    (Nat.le_refl (c + 0))

theorem takes_word : word.Takes 1 :=
  takes_lexeme ((takes_satisfying _).bind
    (fun _ => (takes_run _).bind (fun _ => takes_pure _) (Nat.le_refl (0 + 0)))
    (Nat.le_refl (1 + 0)))

theorem takes_keyword (expected : String) : (keyword expected).Takes 1 :=
  takes_word.guarded _

theorem takes_wordIn (expected : List String) : (wordIn expected).Takes 1 :=
  takes_word.guarded _

theorem takes_identifier : identifier.Takes 1 :=
  takes_word.guarded _

theorem takes_punct (c : Char) : (punct c).Takes 1 :=
  takes_lexeme ((takes_exactly c).bind (fun _ => takes_pure _) (Nat.le_refl (1 + 0)))

theorem takes_equals : equals.Takes 1 :=
  takes_lexeme ((takes_exactly '=').bind (fun _ => takes_notNext _) (Nat.le_refl (1 + 0)))

theorem afterStart?_eq_some {start text rest : List Char}
    (h : Text.afterStart? start text = some rest) : text = start ++ rest := by
  fun_induction Text.afterStart? start text with
  | case1 text => simpa using h
  | case2 => cases h
  | case3 c start text ih => simpa using ih h
  | case4 => cases h

theorem takes_oneOf (spellings : List (List Char)) (h : ∀ spelling ∈ spellings, spelling ≠ []) :
    (oneOf spellings).Takes 1 := by
  induction spellings with
  | nil => exact fun text a rest hread => by cases hread
  | cons spelling others ih =>
    intro text a rest hread
    simp only [oneOf] at hread
    split at hread
    · rename_i rest' hafter
      cases hread
      rw [afterStart?_eq_some hafter, List.length_append]
      have hpos := List.length_pos_iff.mpr (h spelling (by simp))
      omega
    · exact ih (fun s hs => h s (by simp [hs])) text a rest hread

theorem takes_operator : operator.Takes 1 :=
  takes_lexeme (takes_oneOf _ (by decide))

theorem takes_update : update.Takes 1 :=
  takes_lexeme (takes_oneOf _ (by decide))

theorem takes_maybe (choices : List Char) : (maybe choices).Takes 0 :=
  (takes_satisfying _).branch (fun _ => takes_pure _) (takes_pure _) (Nat.zero_le (1 + 0))

theorem takes_exponent : exponent.Takes 1 :=
  (takes_satisfying _).bind
    (fun _ => (takes_maybe _).bind
      (fun _ => (takes_run1 _).bind (fun _ => takes_pure _) (Nat.zero_le (1 + 0)))
      (Nat.le_refl (0 + 0)))
    (Nat.le_refl (1 + 0))

theorem takes_maybeExponent : maybeExponent.Takes 0 :=
  takes_exponent.branch (fun _ => takes_pure _) (takes_pure _) (Nat.zero_le (1 + 0))

theorem takes_pointedNumber : pointedNumber.Takes 1 :=
  (takes_run1 _).bind
    (fun _ => (takes_exactly _).bind
      (fun _ => (takes_run _).bind
        (fun _ => takes_maybeExponent.bind (fun _ => takes_pure _) (Nat.le_refl (0 + 0)))
        (Nat.le_refl (0 + 0)))
      (Nat.zero_le (1 + 0)))
    (Nat.le_refl (1 + 0))

theorem takes_fractionNumber : fractionNumber.Takes 1 :=
  (takes_exactly _).bind
    (fun _ => (takes_run1 _).bind
      (fun _ => takes_maybeExponent.bind (fun _ => takes_pure _) (Nat.le_refl (0 + 0)))
      (Nat.zero_le (1 + 0)))
    (Nat.le_refl (1 + 0))

theorem takes_scaledNumber : scaledNumber.Takes 1 :=
  (takes_run1 _).bind
    (fun _ => takes_exponent.bind (fun _ => takes_pure _) (Nat.zero_le (1 + 0)))
    (Nat.le_refl (1 + 0))

theorem takes_floatLiteral : floatLiteral.Takes 1 :=
  takes_lexeme ((takes_pointedNumber.orElse (takes_fractionNumber.orElse takes_scaledNumber)).bind
    (fun _ => (takes_maybe _).bind
      (fun _ => (takes_notNext _).bind (fun _ => takes_pure _) (Nat.le_refl (0 + 0)))
      (Nat.le_refl (0 + 0)))
    (Nat.le_refl (1 + 0)))

theorem takes_hexNumber : hexNumber.Takes 1 :=
  (takes_oneOf _ (by decide)).bind
    (fun _ => (takes_run1 _).bind (fun _ => takes_pure _) (Nat.zero_le (1 + 0)))
    (Nat.le_refl (1 + 0))

theorem takes_intLiteral : intLiteral.Takes 1 :=
  takes_lexeme ((takes_hexNumber.orElse (takes_run1 _)).bind
    (fun _ => (takes_maybe _).bind
      (fun _ => (takes_notNext _).bind (fun _ => takes_pure _) (Nat.le_refl (0 + 0)))
      (Nat.le_refl (0 + 0)))
    (Nat.le_refl (1 + 0)))

theorem takes_directive : directive.Takes 1 :=
  takes_lexeme ((takes_exactly _).bind
    (fun _ => (takes_run _).bind (fun _ => takes_pure _) (Nat.le_refl (0 + 0)))
    (Nat.le_refl (1 + 0)))

end Token

/-! ### Expressions -/

namespace Expression

open Token

theorem takes_emptyByVoid : emptyByVoid.Takes 0 :=
  (takes_keyword _).bind
    (fun _ => (takes_punct _).ahead.bind (fun _ => takes_pure _) (Nat.le_refl (0 + 0)))
    (Nat.zero_le (1 + 0))

section Agreement

variable {n : Nat} {p q : Breadth → Reader Node}

theorem agree_call (h : ∀ b, Agree n 1 (p b) (q b)) : Agree (n + 1) 1 (call p) (call q) := by
  refine (takes_identifier.agree _).bind (fun name => ?_) (Nat.le_refl (1 + 0))
  refine (takes_punct _ |>.agree _).bind (fun _ => ?_) (Nat.zero_le (1 + 0))
  refine Agree.bind (c := 0) (d := 0) ?_ (fun arguments => ?_) (Nat.le_refl 0)
  · exact (takes_emptyByVoid.agree _).orElse
      (((h .withoutComma).mono (by omega) (Nat.le_refl _)).separated (takes_punct _))
  · exact (takes_punct _ |>.agree _).bind (fun _ => agree_pure _ _) (Nat.zero_le (1 + 0))

theorem agree_parenthesized (h : ∀ b, Agree n 1 (p b) (q b)) :
    Agree (n + 1) 1 (parenthesized p) (parenthesized q) := by
  refine (takes_punct _ |>.agree _).bind (fun _ => ?_) (Nat.le_refl (1 + 0))
  refine ((h .withComma).mono (by omega) (Nat.zero_le _)).bind (fun _ => ?_) (Nat.le_refl (0 + 0))
  exact (takes_punct _ |>.agree _).bind (fun _ => agree_pure _ _) (Nat.zero_le (1 + 0))

theorem agree_primary (h : ∀ b, Agree n 1 (p b) (q b)) :
    Agree (n + 1) 1 (primary p) (primary q) := by
  have hleaf : ∀ {α : Type} {r : Reader α} (f : α → Node), r.Takes 1 →
      Agree (n + 1) 1 (do return f (← r)) (do return f (← r)) :=
    fun f hr => (hr.agree _).bind (fun _ => agree_pure _ _) (Nat.le_refl (1 + 0))
  refine (hleaf _ takes_floatLiteral).orElse ((hleaf _ takes_intLiteral).orElse ?_)
  refine (hleaf (fun _ => .boolLiteral true) (takes_keyword _)).orElse
    ((hleaf (fun _ => .boolLiteral false) (takes_keyword _)).orElse ?_)
  exact (agree_call h).orElse ((hleaf _ takes_identifier).orElse (agree_parenthesized h))

theorem stepsAgree_trailer (h : ∀ b, Agree n 1 (p b) (q b)) (base : Node) :
    StepsAgree (n + 1) (trailer p base) (trailer q base) := by
  refine StepsAgree.branch (takes_punct _ |>.agree _) (fun _ => ?_)
    (StepsAgree.branch (takes_punct _ |>.agree _) (fun _ => ?_)
      (StepsAgree.branch (takes_update.agree _) (fun _ => ?_) (StepsAgree.stop _)))
  · refine ((h .withComma).mono (by omega) (Nat.zero_le _)).bind (fun position => ?_)
      (Nat.le_refl (0 + 0))
    exact (takes_punct _ |>.agree _).bind (fun _ => agree_pure _ _) (Nat.zero_le (1 + 0))
  · exact (takes_word.agree _).bind (fun _ => agree_pure _ _) (Nat.zero_le (1 + 0))
  · exact agree_pure _ _

theorem agree_trailed (h : ∀ b, Agree n 1 (p b) (q b)) :
    Agree (n + 1) 1 (trailed p) (trailed q) := by
  refine (agree_primary h).bind (fun base => ?_) (Nat.le_refl (1 + 0))
  exact Agree.extend (fun base => (stepsAgree_trailer h base).mono (by omega)) base

theorem agree_unary (h : ∀ b, Agree n 1 (p b) (q b)) : Agree (n + 1) 1 (unary p) (unary q) := by
  refine fix_agree (fun m hm again again' hagain _ => ?_) ()
  refine ((takes_operator.guarded _).agree _).branch (fun operator => ?_)
    ((agree_trailed h).mono hm (Nat.le_refl _)) (Nat.le_refl (1 + 0))
  exact ((hagain ()).mono (Nat.le_refl _) (Nat.zero_le _)).bind (fun _ => agree_pure _ _)
    (Nat.le_refl (0 + 0))

theorem takes_operatorFrom (least : Nat) : (operatorFrom least).Takes 1 := by
  refine takes_operator.bind (fun operator => ?_) (Nat.le_refl (1 + 0))
  cases Precedence.ofBinary? operator with
  | none => exact takes_refuse 0
  | some level =>
    show (if least ≤ level then pure (operator, level) else refuse : Reader (String × Nat)).Takes 0
    split
    · exact takes_pure _
    · exact takes_refuse 0

/-- One more operand after `left`, joined by an operator of level `least` or more. -/
def joined (again : Nat → Reader Node) (least : Nat) (left : Node) : Reader (Option Node) :=
  (operatorFrom least).branch
    (fun (operator, level) => do
      let right ← again (level + 1)
      return some (.binary operator left right))
    (pure none)

theorem stepsAgree_joined {m : Nat} {again again' : Nat → Reader Node}
    (h : ∀ j, Agree m 1 (again j) (again' j)) (least : Nat) (left : Node) :
    StepsAgree (m + 1) (joined again least left) (joined again' least left) := by
  refine StepsAgree.branch (takes_operatorFrom least |>.agree _) (fun operator => ?_)
    (StepsAgree.stop _)
  exact ((h (operator.2 + 1)).mono (Nat.le_refl _) (Nat.zero_le _)).bind (fun _ => agree_pure _ _)
    (Nat.le_refl (0 + 0))

theorem agree_binary (h : ∀ b, Agree n 1 (p b) (q b)) (least : Nat) :
    Agree (n + 1) 1 (binary p least) (binary q least) := by
  refine fix_agree (fun m hm again again' hagain i => ?_) least
  refine ((agree_unary h).mono hm (Nat.le_refl _)).bind (fun first => ?_) (Nat.le_refl (1 + 0))
  exact Agree.extend
    (fun left => (stepsAgree_joined hagain i left).mono (Nat.le_succ m)) first

theorem agree_conditional (h : ∀ b, Agree n 1 (p b) (q b)) :
    Agree (n + 1) 1 (conditional p) (conditional q) := by
  refine (agree_binary h _).bind (fun condition => ?_) (Nat.le_refl (1 + 0))
  refine (takes_punct _ |>.agree _).branch (fun _ => ?_) (agree_pure _ _) (Nat.zero_le (1 + 0))
  refine ((h .withComma).mono (by omega) (Nat.zero_le _)).bind (fun ifTrue => ?_)
    (Nat.le_refl (0 + 0))
  refine (takes_punct _ |>.agree _).bind (fun _ => ?_) (Nat.zero_le (1 + 0))
  exact ((h .withoutComma).mono (by omega) (Nat.zero_le _)).bind (fun _ => agree_pure _ _)
    (Nat.le_refl (0 + 0))

theorem takes_assignmentTo (target : Node) : (assignmentTo target).Takes 1 := by
  unfold assignmentTo
  split
  · exact takes_operator.guarded _
  · exact takes_refuse 1

theorem agree_assignment (h : ∀ b, Agree n 1 (p b) (q b)) :
    Agree (n + 1) 1 (assignment p) (assignment q) := by
  refine (agree_conditional h).bind (fun target => ?_) (Nat.le_refl (1 + 0))
  refine (takes_assignmentTo target |>.agree _).branch (fun operator => ?_) (agree_pure _ _)
    (Nat.zero_le (1 + 0))
  exact ((h .withoutComma).mono (by omega) (Nat.zero_le _)).bind (fun _ => agree_pure _ _)
    (Nat.le_refl (0 + 0))

/-- One more assignment after `left`, joined by the comma operator. -/
def listed (inner : Breadth → Reader Node) (left : Node) : Reader (Option Node) :=
  (punct ',').branch
    (fun _ => do
      let right ← assignment inner
      return some (.binary "," left right))
    (pure none)

theorem stepsAgree_listed (h : ∀ b, Agree n 1 (p b) (q b)) (left : Node) :
    StepsAgree (n + 1) (listed p left) (listed q left) := by
  refine StepsAgree.branch (takes_punct _ |>.agree _) (fun _ => ?_) (StepsAgree.stop _)
  exact ((agree_assignment h).mono (Nat.le_succ n) (Nat.zero_le _)).bind (fun _ => agree_pure _ _)
    (Nat.le_refl (0 + 0))

theorem agree_commaList (h : ∀ b, Agree n 1 (p b) (q b)) :
    Agree (n + 1) 1 (commaList p) (commaList q) := by
  refine (agree_assignment h).bind (fun first => ?_) (Nat.le_refl (1 + 0))
  exact Agree.extend (fun left => (stepsAgree_listed h left).mono (Nat.le_succ n)) first

end Agreement

theorem contracts_expression :
    Contracts 1 (fun (inner : Breadth → Reader Node) breadth =>
      match breadth with
      | .withComma => commaList inner
      | .withoutComma => assignment inner) := by
  intro n p q h breadth
  cases breadth with
  | withComma => exact agree_commaList h
  | withoutComma => exact agree_assignment h

theorem expression_withComma : expression .withComma = commaList expression :=
  contracts_expression.fix_eq .withComma

theorem expression_withoutComma : expression .withoutComma = assignment expression :=
  contracts_expression.fix_eq .withoutComma

theorem takes_expression (breadth : Breadth) : (expression breadth).Takes 1 :=
  contracts_expression.takes breadth

theorem agree_expression (n : Nat) (breadth : Breadth) :
    Agree n 1 (expression breadth) (expression breadth) :=
  (takes_expression breadth).agree n

theorem takes_trailed : (trailed expression).Takes 1 :=
  takes_of_agree fun n => (agree_trailed (agree_expression n)).mono (Nat.le_succ n) (Nat.le_refl 1)

theorem takes_unary : (unary expression).Takes 1 :=
  takes_of_agree fun n => (agree_unary (agree_expression n)).mono (Nat.le_succ n) (Nat.le_refl 1)

theorem takes_binary (least : Nat) : (binary expression least).Takes 1 :=
  takes_of_agree fun n =>
    (agree_binary (agree_expression n) least).mono (Nat.le_succ n) (Nat.le_refl 1)

theorem takes_conditional : (conditional expression).Takes 1 :=
  takes_of_agree fun n =>
    (agree_conditional (agree_expression n)).mono (Nat.le_succ n) (Nat.le_refl 1)

theorem contracts_unary :
    Contracts 1 (fun (again : Unit → Reader Node) _ =>
      (operator.guarded Precedence.isLeading).branch
        (fun operator => do
          let operand ← again ()
          return .unary operator operand)
        (trailed expression)) := by
  intro n again again' hagain _
  refine ((takes_operator.guarded _).agree _).branch (fun operator => ?_)
    (takes_trailed.agree _) (Nat.le_refl (1 + 0))
  exact ((hagain ()).mono (Nat.le_refl _) (Nat.zero_le _)).bind (fun _ => agree_pure _ _)
    (Nat.le_refl (0 + 0))

theorem unary_eq :
    unary expression = (operator.guarded Precedence.isLeading).branch
      (fun operator => do
        let operand ← unary expression
        return .unary operator operand)
      (trailed expression) :=
  contracts_unary.fix_eq ()

theorem contracts_binary :
    Contracts 1 (fun (again : Nat → Reader Node) least => do
      let first ← unary expression
      extend (joined again least) first) := by
  intro n again again' hagain i
  refine (takes_unary.agree _).bind (fun first => ?_) (Nat.le_refl (1 + 0))
  exact Agree.extend
    (fun left => (stepsAgree_joined hagain i left).mono (Nat.le_succ n)) first

theorem binary_eq (least : Nat) :
    binary expression least = (do
      let first ← unary expression
      extend (joined (binary expression) least) first) :=
  contracts_binary.fix_eq least

theorem trailer_steps (n : Nat) (base : Node) :
    StepsAgree n (trailer expression base) (trailer expression base) :=
  (stepsAgree_trailer (agree_expression n) base).mono (Nat.le_succ n)

theorem joined_steps (least n : Nat) (left : Node) :
    StepsAgree n (joined (binary expression) least left) (joined (binary expression) least left) :=
  (stepsAgree_joined (fun j => (takes_binary j).agree n) least left).mono (Nat.le_succ n)

theorem listed_steps (n : Nat) (left : Node) :
    StepsAgree n (listed expression left) (listed expression left) :=
  (stepsAgree_listed (agree_expression n) left).mono (Nat.le_succ n)

end Expression

/-! ### Declarations -/

namespace Declaration

open Token Expression

theorem takes_layoutEntry : layoutEntry.Takes 1 := by
  refine takes_word.bind (d := 0) (fun name => ?_) (Nat.le_refl (1 + 0))
  refine ((takes_punct '=').bind (fun _ => takes_intLiteral) (Nat.zero_le 2)).optional.bind
    (fun value => ?_) (Nat.le_refl (0 + 0))
  cases value with
  | none => exact takes_pure _
  | some number => exact takes_pure _

theorem takes_layoutQualifier : layoutQualifier.Takes 1 := by
  refine (takes_keyword _).bind (fun _ => ?_) (Nat.le_refl (1 + 0))
  refine (takes_punct _).bind (fun _ => ?_) (Nat.zero_le (1 + 0))
  refine ((takes_punct ',').separated1 takes_layoutEntry).bind (fun _ => ?_) (Nat.zero_le (1 + 0))
  exact (takes_punct _).bind (fun _ => takes_pure _) (Nat.zero_le (1 + 0))

theorem takes_declarationQualifier : declarationQualifier.Takes 1 :=
  takes_layoutQualifier.orElse (takes_wordIn _)

theorem takes_parameterQualifier : parameterQualifier.Takes 1 :=
  takes_wordIn _

theorem takes_precisionQualifier : precisionQualifier.Takes 1 :=
  takes_wordIn _

theorem takes_typeName : typeName.Takes 1 :=
  takes_identifier.bind (fun _ => takes_pure _) (Nat.le_refl (1 + 0))

theorem takes_arraySize : arraySize.Takes 1 := by
  refine (takes_punct _).bind (fun _ => ?_) (Nat.le_refl (1 + 0))
  refine takes_conditional.bind (fun _ => ?_) (Nat.zero_le (1 + 0))
  exact (takes_punct _).bind (fun _ => takes_pure _) (Nat.zero_le (1 + 0))

theorem takes_declarator : declarator.Takes 1 := by
  refine takes_identifier.bind (fun name => ?_) (Nat.le_refl (1 + 0))
  refine takes_arraySize.optional.bind (fun size => ?_) (Nat.le_refl (0 + 0))
  refine takes_equals.branch (fun _ => ?_) (takes_pure _) (Nat.zero_le (1 + 0))
  exact (takes_expression _).bind (fun _ => takes_pure _) (Nat.zero_le (1 + 0))

theorem takes_declarators (type : Node) : (declarators type).Takes 0 := by
  unfold declarators
  split
  · exact takes_of_agree fun n => (takes_declarator.agree n).separated (takes_punct _)
  · exact ((takes_punct _).separated1 takes_declarator).mono (Nat.zero_le 1)

section Agreement

variable {n : Nat} {p q : Reader Node}

theorem agree_structSpecifier (h : Agree n 1 p q) :
    Agree (n + 1) 1 (structSpecifier p) (structSpecifier q) := by
  refine (takes_keyword _ |>.agree _).bind (fun _ => ?_) (Nat.le_refl (1 + 0))
  refine (takes_identifier.optional.agree _).bind (fun name => ?_) (Nat.le_refl (0 + 0))
  refine (takes_punct _ |>.agree _).bind (fun _ => ?_) (Nat.zero_le (1 + 0))
  refine (h.mono (by omega) (Nat.le_refl _)).many1.bind (fun members => ?_) (Nat.zero_le (1 + 0))
  exact (takes_punct _ |>.agree _).bind (fun _ => agree_pure _ _) (Nat.zero_le (1 + 0))

theorem agree_typeSpecifier (h : Agree n 1 p q) :
    Agree (n + 1) 1 (typeSpecifier p) (typeSpecifier q) :=
  (agree_structSpecifier h).orElse (takes_typeName.agree _)

theorem agree_body (h : Agree n 1 p q) : Agree (n + 1) 1 (body p) (body q) := by
  refine (takes_many takes_declarationQualifier |>.agree _).bind (fun qualifiers => ?_)
    (Nat.le_refl (0 + 1))
  refine (agree_typeSpecifier h).bind (fun type => ?_) (Nat.le_refl (1 + 0))
  exact (takes_declarators type |>.agree _).bind (fun _ => agree_pure _ _) (Nat.le_refl (0 + 0))

end Agreement

theorem contracts_declaration :
    Contracts 1 (fun (again : Unit → Reader Node) _ => do
      let declared ← body (again ())
      punct ';'
      return declared) := by
  intro n again again' hagain _
  refine (agree_body (hagain ())).bind (fun declared => ?_) (Nat.le_refl (1 + 0))
  exact (takes_punct _ |>.agree _).bind (fun _ => agree_pure _ _) (Nat.zero_le (1 + 0))

theorem declaration_eq :
    declaration = (do
      let declared ← body declaration
      punct ';'
      return declared) :=
  contracts_declaration.fix_eq ()

theorem takes_declaration : declaration.Takes 1 :=
  contracts_declaration.takes ()

theorem takes_typeSpecifier : (typeSpecifier declaration).Takes 1 :=
  takes_of_agree fun n =>
    (agree_typeSpecifier (takes_declaration.agree n)).mono (Nat.le_succ n) (Nat.le_refl 1)

theorem takes_body : (body declaration).Takes 1 :=
  takes_of_agree fun n =>
    (agree_body (takes_declaration.agree n)).mono (Nat.le_succ n) (Nat.le_refl 1)

theorem takes_precisionStatement : precisionStatement.Takes 1 := by
  refine (takes_keyword _).bind (fun _ => ?_) (Nat.le_refl (1 + 0))
  refine takes_precisionQualifier.bind (fun _ => ?_) (Nat.zero_le (1 + 0))
  refine takes_typeName.bind (fun _ => ?_) (Nat.zero_le (1 + 0))
  exact (takes_punct _).bind (fun _ => takes_pure _) (Nat.zero_le (1 + 0))

theorem takes_parameter : parameter.Takes 1 := by
  refine (takes_many takes_parameterQualifier).bind (fun _ => ?_) (Nat.le_refl (0 + 1))
  refine takes_typeSpecifier.bind (fun _ => ?_) (Nat.le_refl (1 + 0))
  refine takes_identifier.optional.bind (fun _ => ?_) (Nat.le_refl (0 + 0))
  exact takes_arraySize.optional.bind (fun _ => takes_pure _) (Nat.le_refl (0 + 0))

theorem takes_parameterList : parameterList.Takes 1 := by
  refine (takes_punct _).bind (fun _ => ?_) (Nat.le_refl (1 + 0))
  refine Takes.bind (c := 0) (d := 0) ?_ (fun _ => ?_) (Nat.le_refl 0)
  · exact takes_emptyByVoid.orElse
      (takes_of_agree fun n => (takes_parameter.agree n).separated (takes_punct _))
  · exact (takes_punct _).bind (fun _ => takes_pure _) (Nat.zero_le (1 + 0))

end Declaration

/-! ### Statements -/

namespace Statement

open Token Expression

theorem takes_condition : condition.Takes 1 :=
  takes_of_agree fun n =>
    (agree_parenthesized (agree_expression n)).mono (Nat.le_succ n) (Nat.le_refl 1)

theorem takes_returnStatement : returnStatement.Takes 1 := by
  refine (takes_keyword _).bind (fun _ => ?_) (Nat.le_refl (1 + 0))
  refine (takes_expression _).optional.bind (fun _ => ?_) (Nat.le_refl (0 + 0))
  exact (takes_punct _).bind (fun _ => takes_pure _) (Nat.zero_le (1 + 0))

theorem takes_jump : jump.Takes 1 := by
  refine (takes_wordIn _).bind (fun _ => ?_) (Nat.le_refl (1 + 0))
  exact (takes_punct _).bind (fun _ => takes_pure _) (Nat.zero_le (1 + 0))

theorem takes_directive : directive.Takes 1 :=
  Token.takes_directive.bind (fun _ => takes_pure _) (Nat.le_refl (1 + 0))

theorem takes_emptyStatement : emptyStatement.Takes 1 :=
  (takes_punct _).bind (fun _ => takes_pure _) (Nat.le_refl (1 + 0))

theorem takes_expressionStatement : expressionStatement.Takes 1 := by
  refine (takes_expression _).bind (fun _ => ?_) (Nat.le_refl (1 + 0))
  exact (takes_punct _).bind (fun _ => takes_pure _) (Nat.zero_le (1 + 0))

section Agreement

variable {n : Nat} {p q : Reader Node}

theorem agree_block (h : Agree n 1 p q) : Agree (n + 1) 1 (block p) (block q) := by
  refine (takes_punct _ |>.agree _).bind (fun _ => ?_) (Nat.le_refl (1 + 0))
  exact (h.mono (by omega) (Nat.le_refl _)).manyUntil (takes_punct _) |>.bind
    (fun _ => agree_pure _ _) (Nat.zero_le (1 + 0))

theorem agree_ifStatement (h : Agree n 1 p q) :
    Agree (n + 1) 1 (ifStatement p) (ifStatement q) := by
  refine (takes_keyword _ |>.agree _).bind (fun _ => ?_) (Nat.le_refl (1 + 0))
  refine (takes_condition.agree _).bind (fun test => ?_) (Nat.zero_le (1 + 0))
  refine (h.mono (by omega) (Nat.zero_le _)).bind (fun thenBranch => ?_) (Nat.le_refl (0 + 0))
  refine (takes_keyword _ |>.agree _).branch (fun _ => ?_) (agree_pure _ _) (Nat.zero_le (1 + 0))
  exact (h.mono (by omega) (Nat.zero_le _)).bind (fun _ => agree_pure _ _) (Nat.le_refl (0 + 0))

theorem agree_forLoop (h : Agree n 1 p q) : Agree (n + 1) 1 (forLoop p) (forLoop q) := by
  refine (takes_keyword _ |>.agree _).bind (fun _ => ?_) (Nat.le_refl (1 + 0))
  refine (takes_punct _ |>.agree _).bind (fun _ => ?_) (Nat.zero_le (1 + 0))
  refine ((Declaration.takes_body.orElse (takes_expression _)).optional.agree _).bind
    (fun init => ?_) (Nat.le_refl (0 + 0))
  refine (takes_punct _ |>.agree _).bind (fun _ => ?_) (Nat.zero_le (1 + 0))
  refine ((takes_expression _).optional.agree _).bind (fun test => ?_) (Nat.le_refl (0 + 0))
  refine (takes_punct _ |>.agree _).bind (fun _ => ?_) (Nat.zero_le (1 + 0))
  refine ((takes_expression _).optional.agree _).bind (fun step => ?_) (Nat.le_refl (0 + 0))
  refine (takes_punct _ |>.agree _).bind (fun _ => ?_) (Nat.zero_le (1 + 0))
  exact (h.mono (by omega) (Nat.zero_le _)).bind (fun _ => agree_pure _ _) (Nat.le_refl (0 + 0))

theorem agree_whileLoop (h : Agree n 1 p q) : Agree (n + 1) 1 (whileLoop p) (whileLoop q) := by
  refine (takes_keyword _ |>.agree _).bind (fun _ => ?_) (Nat.le_refl (1 + 0))
  refine (takes_condition.agree _).bind (fun test => ?_) (Nat.zero_le (1 + 0))
  exact (h.mono (by omega) (Nat.zero_le _)).bind (fun _ => agree_pure _ _) (Nat.le_refl (0 + 0))

theorem agree_doWhileLoop (h : Agree n 1 p q) :
    Agree (n + 1) 1 (doWhileLoop p) (doWhileLoop q) := by
  refine (takes_keyword _ |>.agree _).bind (fun _ => ?_) (Nat.le_refl (1 + 0))
  refine (h.mono (by omega) (Nat.zero_le _)).bind (fun body => ?_) (Nat.le_refl (0 + 0))
  refine (takes_keyword _ |>.agree _).bind (fun _ => ?_) (Nat.zero_le (1 + 0))
  refine (takes_condition.agree _).bind (fun test => ?_) (Nat.zero_le (1 + 0))
  exact (takes_punct _ |>.agree _).bind (fun _ => agree_pure _ _) (Nat.zero_le (1 + 0))

end Agreement

theorem contracts_statement :
    Contracts 1 (fun (again : Unit → Reader Node) _ =>
      let inner := again ()
      block inner <|> ifStatement inner <|> forLoop inner <|> whileLoop inner <|>
        doWhileLoop inner <|> returnStatement <|> jump <|> directive <|> emptyStatement <|>
        Declaration.declaration <|> expressionStatement) := by
  intro n again again' hagain _
  have h := hagain ()
  refine (agree_block h).orElse ((agree_ifStatement h).orElse ((agree_forLoop h).orElse
    ((agree_whileLoop h).orElse ((agree_doWhileLoop h).orElse ?_))))
  refine (takes_returnStatement.agree _).orElse ((takes_jump.agree _).orElse
    ((takes_directive.agree _).orElse ((takes_emptyStatement.agree _).orElse ?_)))
  exact (Declaration.takes_declaration.agree _).orElse (takes_expressionStatement.agree _)

theorem statement_eq :
    statement = (block statement <|> ifStatement statement <|> forLoop statement <|>
      whileLoop statement <|> doWhileLoop statement <|> returnStatement <|> jump <|>
      directive <|> emptyStatement <|> Declaration.declaration <|> expressionStatement) :=
  contracts_statement.fix_eq ()

theorem takes_statement : statement.Takes 1 :=
  contracts_statement.takes ()

theorem takes_block : (block statement).Takes 1 :=
  takes_of_agree fun n =>
    (agree_block (takes_statement.agree n)).mono (Nat.le_succ n) (Nat.le_refl 1)

theorem takes_function : function.Takes 1 := by
  refine (takes_many Declaration.takes_precisionQualifier).bind (fun _ => ?_) (Nat.le_refl (0 + 1))
  refine Declaration.takes_typeSpecifier.bind (fun _ => ?_) (Nat.le_refl (1 + 0))
  refine takes_identifier.bind (fun _ => ?_) (Nat.zero_le (1 + 0))
  refine Declaration.takes_parameterList.bind (fun _ => ?_) (Nat.zero_le (1 + 0))
  refine (takes_punct _).branch (fun _ => takes_pure _) ?_ (Nat.zero_le (1 + 0))
  exact takes_block.bind (fun _ => takes_pure _) (Nat.zero_le (1 + 0))

theorem takes_topLevel : topLevel.Takes 1 :=
  takes_directive.orElse (Declaration.takes_precisionStatement.orElse
    (takes_function.orElse Declaration.takes_declaration))

end Statement

/-- One round of reading declarations. -/
theorem Source.topLevels_read {source rest next : List Char} {isFragment : Bool} {node : Node}
    {bound : Nat} (h : Statement.topLevel rest = .read node next)
    (hallowed : (isFragment && isAttribute node) = false) :
    topLevels source isFragment (bound + 1) rest = (do
      let others ← topLevels source isFragment bound next
      return node :: others) := by
  have hlength := Statement.takes_topLevel _ _ _ h
  cases rest with
  | nil => cases hlength
  | cons c rest =>
    rw [topLevels, h]
    · simp only [hallowed, Bool.false_eq_true, if_false]
    · exact List.cons_ne_nil c rest

end GlslShrink
