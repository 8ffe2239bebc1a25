import GlslShrink.Proofs.RoundTrip.Declaration

/-!
Printed statements are read back. The alternatives of a statement are told apart by its first word
or mark; only an expression and a declaration can start with the same word, and then a second word
comes next in a declaration and never in an expression. An `else` goes with the nearest `if`, so
that a statement which ends with an open `if` must not be followed by one.
-/

set_option autoImplicit false

namespace GlslShrink

open Reader Token Expression Piece Declaration Statement

/-! ### Expressions are no other statements -/

section Words

variable {text rest : List Char} {w : String}

theorem continuation_of_word (h : word text = .read w rest) : continuation text = 0 := by
  obtain ⟨c, tail, rfl, hc⟩ := exists_of_word h
  have hne : ∀ d, Word.isStart d = false → c ≠ d := fun d hd => isStart_ne hc hd
  obtain ⟨place, hplace⟩ := operator_refuses (stops_of_word h).1
  unfold continuation
  split
  · exact absurd (List.cons.inj ‹_›).1 (hne '(' rfl)
  · exact absurd (List.cons.inj ‹_›).1 (hne '.' rfl)
  · exact absurd (List.cons.inj ‹_›).1 (hne '[' rfl)
  · exact absurd (List.cons.inj ‹_›).1 (hne '?' rfl)
  · exact absurd (List.cons.inj ‹_›).1 (hne ',' rfl)
  · rw [hplace]

/-- No expression starts with a word that the grammar keeps for itself, `true` and `false` apart. -/
theorem expression_refuses_of_word (h : word text = .read w rest)
    (hw : Word.isStructural w = true) (hbool : w ≠ "true" ∧ w ≠ "false") (breadth : Breadth) :
    (expression breadth).Refuses text := by
  obtain ⟨hoperator, hnumber⟩ := stops_of_word h
  obtain ⟨hfloat, hint⟩ := numbers_refuse hnumber
  have hidentifier : identifier.Refuses text := guarded_refuses h (by simp [hw])
  have hparen : (punct '(').Refuses text := by
    obtain ⟨c, tail, rfl, hc⟩ := exists_of_word h
    exact punct_refuses (by simpa using isStart_ne hc rfl)
  have hprimary : (primary expression).Refuses text :=
    (hfloat.bind _).orElse ((hint.bind _).orElse
      (((keyword_refuses_of_word h hbool.1).bind _).orElse
        (((keyword_refuses_of_word h hbool.2).bind _).orElse ((hidentifier.bind _).orElse
          ((hidentifier.bind _).orElse (hparen.bind _))))))
  exact expression_refuses_of_primary hoperator hprimary breadth

theorem keyword_refuses_of_expression {x : Node} {breadth : Breadth} {k : String}
    (h : expression breadth text = .read x rest) (hk : Word.isStructural k = true)
    (hbool : k ≠ "true" ∧ k ≠ "false") : (keyword k).Refuses text := by
  rcases read_or_refuses (keyword k) text with ⟨w, tail, hread⟩ | hrefuses
  · obtain ⟨hword, hw⟩ := guarded_inv hread
    rw [beq_iff_eq] at hw
    subst hw
    exact absurd (expression_refuses_of_word hword hk hbool breadth) (not_refuses_of_read h)
  · exact hrefuses

theorem head_ne_of_expression {x : Node} {breadth : Breadth} {c : Char}
    (h : expression breadth text = .read x rest) (hc : startsExpression c = false) :
    text.head? ≠ some c := by
  intro hhead
  obtain ⟨tail, rfl⟩ := List.head?_eq_some_iff.mp hhead
  exact absurd (expression_refuses breadth (stops_cons.mpr hc)) (not_refuses_of_read h)

/-- An expression that no word follows is not the start of a declaration. -/
theorem body_refuses_of_expression {x : Node} {breadth : Breadth}
    (h : expression breadth text = .read x rest) (hrest : Stops Word.isPart rest) :
    (body declaration).Refuses text := by
  rcases read_or_refuses word text with ⟨w, tail, hword⟩ | hrefuses
  · by_cases hw : Word.isStructural w = true
    · -- then the word is `true` or `false`, at which no declaration starts
      have hbool : w = "true" ∨ w = "false" := by
        refine Decidable.byContradiction fun hnot => ?_
        rw [not_or] at hnot
        exact absurd (expression_refuses_of_word hword hw hnot breadth) (not_refuses_of_read h)
      have hmany : declarationQualifier.Refuses text := by
        refine Refuses.orElse ((keyword_refuses_of_word hword ?_).bind _) (guarded_refuses hword ?_)
        · rcases hbool with rfl | rfl <;> decide
        · rcases hbool with rfl | rfl <;> decide
      refine Refuses.bind_of_read (many_refuses takes_declarationQualifier hmany)
        (Refuses.bind (typeSpecifier_refuses hword ?_) _)
      rcases hbool with rfl | rfl <;> decide
    · -- then the word is read as a type, and a declared name would have to come next
      have hname : (!Word.isStructural w) = true := by simpa using hw
      have htype : startsType w = true := by simp [startsType, hname]
      have hidentifier : identifier text = .read w tail := guarded_read hword hname
      refine Refuses.bind_of_read
        (many_refuses takes_declarationQualifier (declarationQualifier_refuses hword htype))
        (Refuses.bind_of_read (typeName_read hidentifier) (Refuses.bind ?_ _))
      have hplain : (Node.typeName w).tag ≠ .structDefinition := by
        show Tag.typeName ≠ .structDefinition
        decide
      rw [declarators, if_neg hplain]
      refine Refuses.bind (Refuses.bind ?_ _) _
      rcases read_or_refuses identifier tail with ⟨w', tail', hnext⟩ | hrefuses
      · have hword' := (guarded_inv hnext).1
        have hsingle := expression_identifier hidentifier (continuation_of_word hword') breadth
        rw [h] at hsingle
        cases hsingle
        obtain ⟨c, after, htail, hc⟩ := exists_of_word hword'
        rw [htail] at hrest
        exact absurd (stops_cons.mp hrest) (by simp [isPart_of_isStart hc])
      · exact hrefuses
  · exact body_refuses_of_word hrefuses

end Words

/-! ### Telling the alternatives apart -/

section Alternatives

variable {text rest tail : List Char} {w : String} {x : Node}

theorem head_ne_of_word (h : word text = .read w rest) {c : Char} (hc : Word.isStart c = false) :
    text.head? ≠ some c := by
  obtain ⟨d, tail, rfl, hd⟩ := exists_of_word h
  simpa using isStart_ne hd hc

theorem block_refuses_of_word (h : word text = .read w rest) : (block statement).Refuses text :=
  (punct_refuses (head_ne_of_word h rfl)).bind _

theorem statement_of_block (h : block statement text = .read x rest) :
    statement text = .read x rest := by
  rw [statement_eq]
  exact orElse_read _ h

theorem statement_of_if (hword : word text = .read "if" tail)
    (h : ifStatement statement text = .read x rest) : statement text = .read x rest := by
  rw [statement_eq]
  exact orElse_refuses (block_refuses_of_word hword) (orElse_read _ h)

theorem statement_of_for (hword : word text = .read "for" tail)
    (h : forLoop statement text = .read x rest) : statement text = .read x rest := by
  have hne : ∀ k, "for" ≠ k → (keyword k).Refuses text := fun k => keyword_refuses_of_word hword
  rw [statement_eq]
  exact orElse_refuses (block_refuses_of_word hword)
    (orElse_refuses ((hne "if" (by decide)).bind _) (orElse_read _ h))

theorem statement_of_while (hword : word text = .read "while" tail)
    (h : whileLoop statement text = .read x rest) : statement text = .read x rest := by
  have hne : ∀ k, "while" ≠ k → (keyword k).Refuses text := fun k => keyword_refuses_of_word hword
  rw [statement_eq]
  exact orElse_refuses (block_refuses_of_word hword)
    (orElse_refuses ((hne "if" (by decide)).bind _)
      (orElse_refuses ((hne "for" (by decide)).bind _) (orElse_read _ h)))

theorem statement_of_do (hword : word text = .read "do" tail)
    (h : doWhileLoop statement text = .read x rest) : statement text = .read x rest := by
  have hne : ∀ k, "do" ≠ k → (keyword k).Refuses text := fun k => keyword_refuses_of_word hword
  rw [statement_eq]
  exact orElse_refuses (block_refuses_of_word hword)
    (orElse_refuses ((hne "if" (by decide)).bind _)
      (orElse_refuses ((hne "for" (by decide)).bind _)
        (orElse_refuses ((hne "while" (by decide)).bind _) (orElse_read _ h))))

/-- A text at which none of the bracketing words stands is one of the simple statements. -/
theorem statement_of_simple (hblock : (block statement).Refuses text)
    (hkeyword : ∀ k ∈ ["if", "for", "while", "do"], (keyword k).Refuses text)
    (h : (returnStatement <|> jump <|> Statement.directive <|> emptyStatement <|>
      declaration <|> expressionStatement) text = .read x rest) :
    statement text = .read x rest := by
  rw [statement_eq]
  exact orElse_refuses hblock (orElse_refuses ((hkeyword "if" (by simp)).bind _)
    (orElse_refuses ((hkeyword "for" (by simp)).bind _)
      (orElse_refuses ((hkeyword "while" (by simp)).bind _)
        (orElse_refuses ((hkeyword "do" (by simp)).bind _) h))))

/-- The words that only one alternative starts with. -/
def statementWords : List String :=
  ["if", "for", "while", "do", "return", "break", "continue", "discard"]

theorem statement_of_last
    (hmark : ∀ c ∈ ['\x7b', '#', ';'], text.head? ≠ some c)
    (hkeyword : ∀ k ∈ statementWords, (keyword k).Refuses text)
    (h : (declaration <|> expressionStatement) text = .read x rest) :
    statement text = .read x rest := by
  have hjump : (wordIn ["break", "continue", "discard"]).Refuses text := by
    rcases read_or_refuses word text with ⟨w, tail, hword⟩ | hrefuses
    · refine guarded_refuses hword (Bool.eq_false_iff.mpr fun hmem => ?_)
      have hmem' : w ∈ ["break", "continue", "discard"] := by simpa using hmem
      have hread : keyword w text = .read w tail := guarded_read hword (by simp)
      have hall : ∀ w ∈ ["break", "continue", "discard"], w ∈ statementWords := by decide
      exact absurd (hkeyword w (hall w hmem')) (not_refuses_of_read hread)
    · exact hrefuses.guarded _
  refine statement_of_simple ((punct_refuses (hmark _ (by simp))).bind _)
    (fun k hk => hkeyword k ?_) (orElse_refuses ((hkeyword "return" (by decide)).bind _)
      (orElse_refuses (hjump.bind _)
        (orElse_refuses ((directive_refuses (hmark _ (by simp))).bind _)
          (orElse_refuses ((punct_refuses (hmark _ (by simp))).bind _) h))))
  have hall : ∀ k ∈ ["if", "for", "while", "do"], k ∈ statementWords := by decide
  exact hall k hk

theorem statement_of_declaration (hword : word text = .read w tail)
    (hw : startsDeclaration w = true) (h : declaration text = .read x rest) :
    statement text = .read x rest := by
  refine statement_of_last (fun c hc => head_ne_of_word hword ?_) (fun k hk => ?_)
    (orElse_read _ h)
  · have hall : ∀ c ∈ ['\x7b', '#', ';'], Word.isStart c = false :=
      forall_mem_of_all (by decide)
    exact hall c hc
  · refine keyword_refuses_of_word hword ?_
    rintro rfl
    have hall : ∀ k ∈ statementWords, startsDeclaration k = false := by decide
    rw [hall w hk] at hw
    cases hw

theorem statement_of_expression {value : Node} (hvalue : expression .withComma text = .read value tail)
    (hapart : Stops Word.isPart tail) (h : expressionStatement text = .read x rest) :
    statement text = .read x rest := by
  refine statement_of_last (fun c hc => head_ne_of_expression hvalue ?_) (fun k hk => ?_)
    (orElse_refuses (declaration_refuses_of_body (body_refuses_of_expression hvalue hapart)) h)
  · have hall : ∀ c ∈ ['\x7b', '#', ';'], startsExpression c = false :=
      forall_mem_of_all (by decide)
    exact hall c hc
  · have hall : ∀ k ∈ statementWords,
        Word.isStructural k = true ∧ k ≠ "true" ∧ k ≠ "false" := by decide
    exact keyword_refuses_of_expression hvalue (hall k hk).1 (hall k hk).2

end Alternatives

/-! ### Statements -/

/-- The pieces are read as the statement, unless an `else` follows that an open `if` would take. -/
structure StatementRead (pieces : List Piece) (node : Node) (isOpen : Bool) : Prop where
  neat : Neat pieces
  notElse : ∀ next, Neat next → (keyword "else").Refuses (seen (pieces ++ next))
  notClose : ∀ next, Neat next → (punct '\x7d').Refuses (seen (pieces ++ next))
  read : ∀ next, Neat next → (isOpen = true → (keyword "else").Refuses (seen next)) →
    statement (seen (pieces ++ next)) = .read node (seen next)

section Forms

variable {pieces : List Piece} {node : Node} {isOpen : Bool}

/-- A statement that starts with a word other than `else`. -/
theorem statementRead_of_word {w : String} {others : List Piece} (hword : Word.isWord w = true)
    (hne : w ≠ "else") (hneat : Neat others)
    (hread : ∀ next, Neat next → (isOpen = true → (keyword "else").Refuses (seen next)) →
      statement (seen (token w :: (others ++ next))) = .read node (seen next)) :
    StatementRead (token w :: others) node isOpen where
  neat := neat_token.mpr hneat
  notElse next hnext := keyword_refuses_seen hword hne (neat_append.mpr ⟨hneat, hnext⟩)
  notClose next hnext := by
    have hseen := word_seen hword (neat_append.mpr ⟨hneat, hnext⟩)
    exact punct_refuses (head_ne_of_word hseen rfl)
  read := hread

theorem statementRead_directive {text : String} (htext : Text.isDirective text = true) :
    StatementRead [Piece.directive text] (.directive text) isOpen where
  neat := neat_directive.mpr neat_nil
  notElse next hnext := by
    refine Refuses.guarded (word_refuses fun c hc => ?_) _
    rw [List.singleton_append, head?_seen_directive htext] at hc
    cases hc
    rfl
  notClose next hnext := by
    refine punct_refuses ?_
    rw [List.singleton_append, head?_seen_directive htext]
    decide
  read next hnext _ := by
    have hhead : (seen (Piece.directive text :: next)).head? = some '#' :=
      head?_seen_directive htext
    have hword : word.Refuses (seen (Piece.directive text :: next)) :=
      word_refuses fun c hc => by
        rw [hhead] at hc
        cases hc
        rfl
    refine statement_of_simple ?_ (fun k _ => hword.guarded _) ?_
    · refine Refuses.bind (punct_refuses ?_) _
      rw [List.singleton_append, hhead]
      decide
    · refine orElse_refuses ((hword.guarded _).bind _) (orElse_refuses ((hword.guarded _).bind _)
        (orElse_read _ ?_))
      rw [List.singleton_append, Statement.directive, bind_read _ (directive_seen htext hnext),
        pure_apply]

theorem statementRead_declaration (h : DeclarationPieces pieces node) :
    StatementRead pieces node isOpen := by
  have hfirst : ∀ next, Neat next → ∃ w rest, word (seen (pieces ++ next)) = .read w rest ∧
      startsDeclaration w = true := by
    intro next hnext
    obtain ⟨front, rfl, hread⟩ := h
    rw [List.append_assoc]
    exact hread.first _ (neat_token.mpr hnext)
  refine ⟨h.neat, fun next hnext => ?_, fun next hnext => ?_, fun next hnext _ => ?_⟩
  · obtain ⟨w, rest, hword, hw⟩ := hfirst next hnext
    refine keyword_refuses_of_word hword ?_
    rintro rfl
    exact absurd hw (by decide)
  · obtain ⟨w, rest, hword, -⟩ := hfirst next hnext
    exact punct_refuses (head_ne_of_word hword rfl)
  · obtain ⟨w, rest, hword, hw⟩ := hfirst next hnext
    exact statement_of_declaration hword hw (h.read hnext)

/-- A block is read statement by statement, up to its closing brace. -/
theorem manyUntil_seen {statements : List Node} {part : Node → List Piece}
    {opens : Node → Bool}
    (h : ∀ node ∈ statements, StatementRead (part node) node.bare (opens node))
    {next : List Piece} (hnext : Neat next) :
    manyUntil statement (punct '\x7d') (seen (statements.flatMap part ++ token "\x7d" :: next)) =
      .read (statements.map Node.bare) (seen next) := by
  induction statements with
  | nil =>
    rw [manyUntil_eq takes_statement (takes_punct _)]
    exact branch_read _ _ (punct_seen '\x7d' "\x7d" rfl rfl hnext)
  | cons node statements ih =>
    obtain ⟨hnode, hothers⟩ := List.forall_mem_cons.mp h
    have hrest : Neat (statements.flatMap part ++ token "\x7d" :: next) :=
      neat_append.mpr ⟨neat_flatMap fun s hs => (hothers s hs).neat, neat_token.mpr hnext⟩
    have helse : (keyword "else").Refuses (seen (statements.flatMap part ++ token "\x7d" :: next)) := by
      cases statements with
      | nil => exact (word_refuses (stops_seen rfl rfl rfl)).guarded _
      | cons second others =>
        rw [List.flatMap_cons, List.append_assoc] at hrest ⊢
        exact (hothers second (by simp)).notElse _ (neat_append.mp hrest).2
    rw [List.flatMap_cons, List.append_assoc, manyUntil_eq takes_statement (takes_punct _),
      branch_refuses _ _ (hnode.notClose _ hrest), bind_read _ (hnode.read _ hrest fun _ => helse),
      bind_read _ (ih hothers), pure_apply, List.map_cons]

theorem reads_block {statements : List Node} {part : Node → List Piece} {opens : Node → Bool}
    (h : ∀ node ∈ statements, StatementRead (part node) node.bare (opens node))
    {next : List Piece} (hnext : Neat next) :
    block statement (seen (token "\x7b" :: statements.flatMap part ++ token "\x7d" :: next)) =
      .read (.scope (statements.map Node.bare)) (seen next) := by
  have hinside : Neat (statements.flatMap part ++ token "\x7d" :: next) :=
    neat_append.mpr ⟨neat_flatMap fun s hs => (h s hs).neat, neat_token.mpr hnext⟩
  rw [List.cons_append, block, bind_read _ (punct_seen '\x7b' "\x7b" rfl rfl hinside),
    bind_read _ (manyUntil_seen h hnext), pure_apply]

/-- A statement that starts with a mark other than the closing brace. -/
theorem statementRead_of_mark {mark : Char} {text : String} {others : List Piece}
    (hchars : text.toList = [mark]) (hsolid : isSolid mark = true)
    (hmark : Word.isStart mark = false ∧ mark ≠ '\x7d') (hneat : Neat others)
    (hread : ∀ next, Neat next →
      statement (seen (token text :: (others ++ next))) = .read node (seen next)) :
    StatementRead (token text :: others) node isOpen where
  neat := neat_token.mpr hneat
  notElse next _ := (word_refuses (stops_seen hchars hsolid hmark.1)).guarded _
  notClose next _ := by
    refine punct_refuses ?_
    rw [List.cons_append, head?_seen hchars hsolid, ne_eq, Option.some.injEq]
    exact hmark.2
  read next hnext _ := hread next hnext

theorem statementRead_scope {statements : List Node} {part : Node → List Piece}
    {opens : Node → Bool}
    (h : ∀ node ∈ statements, StatementRead (part node) node.bare (opens node)) :
    StatementRead (token "\x7b" :: (statements.flatMap part ++ [token "\x7d"]))
      (.scope (statements.map Node.bare)) isOpen := by
  have hneat : Neat (statements.flatMap part ++ [token "\x7d"]) := by
    simp [neat_flatMap fun s hs => (h s hs).neat, neat_nil]
  refine statementRead_of_mark rfl rfl (by decide) hneat fun next hnext => ?_
  rw [List.append_assoc]
  exact statement_of_block (reads_block h hnext)

theorem statementRead_empty : StatementRead [token ";"] (.expressionStatement none) isOpen := by
  refine statementRead_of_mark rfl rfl (by decide) neat_nil fun next hnext => ?_
  rw [List.nil_append]
  have hword : word.Refuses (seen (token ";" :: next)) := word_refuses (stops_seen rfl rfl rfl)
  have hhead : (seen (token ";" :: next)).head? = some ';' := head?_seen rfl rfl
  refine statement_of_simple ((punct_refuses (by rw [hhead]; decide)).bind _)
    (fun k _ => hword.guarded _) ?_
  refine orElse_refuses ((hword.guarded _).bind _) (orElse_refuses ((hword.guarded _).bind _)
    (orElse_refuses ((directive_refuses (by rw [hhead]; decide)).bind _) (orElse_read _ ?_)))
  exact bind_read _ (punct_seen ';' ";" rfl rfl hnext)

theorem statementRead_expression (h : Legible pieces node 1) :
    StatementRead (pieces ++ [token ";"]) (.expressionStatement (some node)) isOpen := by
  have hvalue : ∀ next, Neat next → expression .withComma (seen (pieces ++ token ";" :: next)) =
      .read node (seen (token ";" :: next)) := fun next hnext =>
    h.reads_withComma _ (follows_closer ';' ";" rfl rfl hnext)
  refine ⟨by simp [h.neat, neat_nil], fun next hnext => ?_, fun next hnext => ?_,
    fun next hnext _ => ?_⟩
  · rw [List.append_assoc]
    exact keyword_refuses_of_expression (hvalue next hnext) (by decide) (by decide)
  · rw [List.append_assoc]
    exact punct_refuses (head_ne_of_expression (hvalue next hnext) (by decide))
  · rw [List.append_assoc]
    refine statement_of_expression (hvalue next hnext) (stops_seen rfl rfl rfl) ?_
    rw [expressionStatement, List.singleton_append, bind_read _ (hvalue next hnext),
      bind_read _ (punct_seen ';' ";" rfl rfl hnext), pure_apply]

/-- An expression that may be missing, in front of a closing mark. -/
theorem optional_expression_seen {separator : String} {value : Option Node}
    (h : ∀ node ∈ value, Printable.Expression node) {next : List Piece} (c : Char) (mark : String)
    (hchars : mark.toList = [c]) (hc : isCloser c = true) (hnext : Neat next) :
    (expression .withComma).optional
        (seen (Sketch.operand (value.map (Node.sketch separator)) Precedence.comma ++
          token mark :: next)) =
      .read (value.map Node.bare) (seen (token mark :: next)) := by
  cases value with
  | none =>
    have hall : ∀ c ∈ [')', ']', ';', ':'], isSolid c = true ∧ startsExpression c = false :=
      forall_mem_of_all (by decide)
    obtain ⟨hsolid, hstart⟩ := hall c (mem_closers hc)
    exact optional_refuses (expression_refuses .withComma (stops_seen hchars hsolid hstart))
  | some node =>
    have hlegible := legible_expression separator (h node rfl) 1 (by omega)
    exact optional_read (hlegible.reads_withComma _ (follows_closer c mark hchars hc hnext))

theorem neat_operand {separator : String} {value : Option Node}
    (h : ∀ node ∈ value, Printable.Expression node) :
    Neat (Sketch.operand (value.map (Node.sketch separator)) Precedence.comma) := by
  cases value with
  | none => exact neat_nil
  | some node => exact (legible_expression separator (h node rfl) 1 (by omega)).neat

theorem statementRead_return {separator : String} {value : Option Node}
    (h : ∀ node ∈ value, Printable.Expression node) :
    StatementRead (token "return" ::
        (Sketch.operand (value.map (Node.sketch separator)) Precedence.comma ++ [token ";"]))
      (.returnStatement (value.map Node.bare)) isOpen := by
  have hneat : ∀ next, Neat next →
      Neat (Sketch.operand (value.map (Node.sketch separator)) Precedence.comma ++
        token ";" :: next) := fun next hnext =>
    neat_append.mpr ⟨neat_operand h, neat_token.mpr hnext⟩
  refine statementRead_of_word (by decide) (by decide) (hneat [] neat_nil)
    fun next hnext _ => ?_
  rw [List.append_assoc, List.singleton_append]
  have hisWord : Word.isWord "return" = true := by decide
  have hword := word_seen hisWord (hneat next hnext)
  have hkeyword := keyword_seen hisWord (hneat next hnext)
  refine statement_of_simple (block_refuses_of_word hword)
    (fun k hk => keyword_refuses_of_word hword ?_) (orElse_read _ ?_)
  · rintro rfl
    exact absurd hk (by decide)
  · rw [returnStatement, bind_read _ hkeyword,
      bind_read _ (optional_expression_seen h ';' ";" rfl rfl hnext),
      bind_read _ (punct_seen ';' ";" rfl rfl hnext), pure_apply]

theorem statementRead_jump {word : String}
    (h : (wordIn ["break", "continue", "discard"]).accepts word = true) :
    StatementRead [token word, token ";"] (.jump word) isOpen := by
  have hmem : word ∈ ["break", "continue", "discard"] := (accepts_wordIn (by decide)).mp h
  have hall : ∀ w ∈ ["break", "continue", "discard"], Word.isWord w = true ∧ w ≠ "else" ∧
      w ∉ ["if", "for", "while", "do", "return"] := by decide
  obtain ⟨hword, hne, hother⟩ := hall word hmem
  refine statementRead_of_word hword hne (neat_token.mpr neat_nil) fun next hnext _ => ?_
  have hneat : Neat (token ";" :: next) := neat_token.mpr hnext
  have hread := word_seen hword hneat
  have hkeyword : ∀ k ∈ ["if", "for", "while", "do", "return"],
      (keyword k).Refuses (seen (token word :: token ";" :: next)) := by
    intro k hk
    refine keyword_refuses_of_word hread ?_
    rintro rfl
    exact hother hk
  refine statement_of_simple (block_refuses_of_word hread)
    (fun k hk => hkeyword k (List.mem_append_left ["return"] hk))
    (orElse_refuses ((hkeyword "return" (by simp)).bind _) (orElse_read _ ?_))
  show jump (seen (token word :: token ";" :: next)) = _
  rw [jump, bind_read _ (wordIn_seen hword hmem hneat),
    bind_read _ (punct_seen ';' ";" rfl rfl hnext), pure_apply]

end Forms

section Branches

variable {test body other : Node} {testPieces bodyPieces otherPieces : List Piece}
  {bodyOpen otherOpen : Bool}

theorem condition_seen (h : Legible testPieces test 1) {next : List Piece} (hnext : Neat next) :
    condition (seen (token "(" :: (testPieces ++ token ")" :: next))) = .read test (seen next) :=
  h.reads_parenthesized hnext

theorem statementRead_while (htest : Legible testPieces test 1)
    (hbody : StatementRead bodyPieces body bodyOpen) :
    StatementRead (token "while" :: token "(" :: (testPieces ++ token ")" :: bodyPieces))
      (.whileLoop test body) bodyOpen := by
  have hneat : Neat (token "(" :: (testPieces ++ token ")" :: bodyPieces)) := by
    simp [htest.neat, hbody.neat]
  have hisWord : Word.isWord "while" = true := by decide
  refine statementRead_of_word hisWord (by decide) hneat fun next hnext hopen => ?_
  have hinside : Neat (bodyPieces ++ next) := neat_append.mpr ⟨hbody.neat, hnext⟩
  have hrest : Neat (token "(" :: (testPieces ++ token ")" :: bodyPieces) ++ next) :=
    neat_append.mpr ⟨hneat, hnext⟩
  refine statement_of_while (word_seen hisWord hrest) ?_
  rw [whileLoop, bind_read _ (keyword_seen hisWord hrest), List.cons_append, List.append_assoc,
    List.cons_append, bind_read _ (condition_seen htest hinside),
    bind_read _ (hbody.read next hnext hopen), pure_apply]

theorem statementRead_do (hbody : StatementRead bodyPieces body bodyOpen)
    (htest : Legible testPieces test 1) {isOpen : Bool} :
    StatementRead (token "do" :: (bodyPieces ++
        token "while" :: token "(" :: (testPieces ++ [token ")", token ";"])))
      (.doWhileLoop body test) isOpen := by
  have hafter : ∀ next, Neat next →
      Neat (token "(" :: (testPieces ++ token ")" :: token ";" :: next)) := by
    intro next hnext
    simp [htest.neat, hnext]
  have hneat : ∀ next, Neat next → Neat (bodyPieces ++
      token "while" :: token "(" :: (testPieces ++ token ")" :: token ";" :: next)) :=
    fun next hnext => neat_append.mpr ⟨hbody.neat, neat_token.mpr (hafter next hnext)⟩
  have hdo : Word.isWord "do" = true := by decide
  have hwhile : Word.isWord "while" = true := by decide
  refine statementRead_of_word hdo (by decide) (hneat [] neat_nil) fun next hnext _ => ?_
  simp only [List.append_assoc, List.cons_append, List.nil_append]
  have helse : (keyword "else").Refuses
      (seen (token "while" :: token "(" :: (testPieces ++ token ")" :: token ";" :: next))) :=
    keyword_refuses_seen hwhile (by decide) (hafter next hnext)
  refine statement_of_do (word_seen hdo (hneat next hnext)) ?_
  rw [doWhileLoop, bind_read _ (keyword_seen hdo (hneat next hnext)),
    bind_read _ (hbody.read _ (neat_token.mpr (hafter next hnext)) fun _ => helse),
    bind_read _ (keyword_seen hwhile (hafter next hnext)),
    bind_read _ (condition_seen htest (neat_token.mpr hnext)),
    bind_read _ (punct_seen ';' ";" rfl rfl hnext), pure_apply]

theorem statementRead_ifThen (htest : Legible testPieces test 1)
    (hbody : StatementRead bodyPieces body bodyOpen) :
    StatementRead (token "if" :: token "(" :: (testPieces ++ token ")" :: bodyPieces))
      (.ifStatement test body none) true := by
  have hneat : Neat (token "(" :: (testPieces ++ token ")" :: bodyPieces)) := by
    simp [htest.neat, hbody.neat]
  have hisWord : Word.isWord "if" = true := by decide
  refine statementRead_of_word hisWord (by decide) hneat fun next hnext hopen => ?_
  have helse := hopen rfl
  have hinside : Neat (bodyPieces ++ next) := neat_append.mpr ⟨hbody.neat, hnext⟩
  have hrest : Neat (token "(" :: (testPieces ++ token ")" :: bodyPieces) ++ next) :=
    neat_append.mpr ⟨hneat, hnext⟩
  refine statement_of_if (word_seen hisWord hrest) ?_
  rw [Statement.ifStatement, bind_read _ (keyword_seen hisWord hrest), List.cons_append,
    List.append_assoc, List.cons_append, bind_read _ (condition_seen htest hinside),
    bind_read _ (hbody.read next hnext fun _ => helse), branch_refuses _ _ helse, pure_apply]

theorem statementRead_ifElse (htest : Legible testPieces test 1)
    (hbody : StatementRead bodyPieces body false)
    (hother : StatementRead otherPieces other otherOpen) :
    StatementRead (token "if" :: token "(" ::
        (testPieces ++ token ")" :: (bodyPieces ++ token "else" :: otherPieces)))
      (.ifStatement test body (some other)) otherOpen := by
  have hneat : Neat (token "(" ::
      (testPieces ++ token ")" :: (bodyPieces ++ token "else" :: otherPieces))) := by
    simp [htest.neat, hbody.neat, hother.neat]
  have hif : Word.isWord "if" = true := by decide
  have helse : Word.isWord "else" = true := by decide
  refine statementRead_of_word hif (by decide) hneat fun next hnext hopen => ?_
  have hlast : Neat (otherPieces ++ next) := neat_append.mpr ⟨hother.neat, hnext⟩
  have hinside : Neat (bodyPieces ++ token "else" :: (otherPieces ++ next)) :=
    neat_append.mpr ⟨hbody.neat, neat_token.mpr hlast⟩
  have hrest : Neat (token "(" ::
      (testPieces ++ token ")" :: (bodyPieces ++ token "else" :: (otherPieces ++ next)))) :=
    neat_token.mpr (neat_append.mpr ⟨htest.neat, neat_token.mpr hinside⟩)
  simp only [List.append_assoc, List.cons_append]
  refine statement_of_if (word_seen hif hrest) ?_
  -- the first branch ends with no open `if`, so the `else` after it is not taken by it
  have hbranch := hbody.read (token "else" :: (otherPieces ++ next)) (neat_token.mpr hlast) (by simp)
  rw [Statement.ifStatement, bind_read _ (keyword_seen hif hrest),
    bind_read _ (condition_seen htest hinside), bind_read _ hbranch,
    branch_read _ _ (keyword_seen helse hlast), bind_read _ (hother.read next hnext hopen),
    pure_apply]

end Branches

/-! ### Loops with a header -/

section Loops

variable {separator : String} {init test step : Option Node} {body : Node}
  {bodyPieces : List Piece} {bodyOpen : Bool}

theorem Sketch.tag_eq (node : Node) : (node.sketch separator).tag = node.tag := by
  rw [Node.sketch_eq]
  rfl

theorem Printable.Declaration.tag_eq {node : Node} (h : Printable.Declaration node) :
    node.tag = .declaration := by
  cases h <;> rfl

theorem Printable.Expression.tag_ne {node : Node} (h : Printable.Expression node) :
    node.tag ≠ .declaration := by
  cases h <;> exact Tag.noConfusion

/-- What the first part of a loop header is read as. -/
structure StartRead (pieces : List Piece) (start : Option Node) : Prop where
  neat : Neat pieces
  read : ∀ next, Neat next →
    (Declaration.body declaration <|> expression .withComma).optional (seen (pieces ++ next)) =
      .read start (seen (token ";" :: next))

theorem startRead_none : StartRead [token ";"] none where
  neat := neat_token.mpr neat_nil
  read next hnext := by
    have hword : word.Refuses (seen (token ";" :: next)) := word_refuses (stops_seen rfl rfl rfl)
    exact optional_refuses ((body_refuses_of_word hword).orElse
      (expression_refuses .withComma (stops_seen rfl rfl rfl)))

theorem startRead_declaration {pieces : List Piece} {node : Node}
    (h : DeclarationPieces pieces node) : StartRead pieces (some node) where
  neat := h.neat
  read next hnext := by
    obtain ⟨front, rfl, hread⟩ := h
    rw [List.append_assoc]
    exact optional_read (orElse_read _ (hread.read _ (follows_closer ';' ";" rfl rfl hnext)))

theorem startRead_expression {pieces : List Piece} {node : Node} (h : Legible pieces node 1) :
    StartRead (pieces ++ [token ";"]) (some node) where
  neat := by simp [h.neat, neat_nil]
  read next hnext := by
    have hvalue := h.reads_withComma _ (follows_closer ';' ";" rfl rfl hnext)
    rw [List.append_assoc]
    exact optional_read
      (orElse_refuses (body_refuses_of_expression hvalue (stops_seen rfl rfl rfl)) hvalue)

theorem startRead
    (h : ∀ node ∈ init, Printable.Declaration node ∨ Printable.Expression node) :
    StartRead (Sketch.loopStart (init.map (Node.sketch separator))) (init.map Node.bare) := by
  cases init with
  | none => exact startRead_none
  | some node =>
    rw [Option.map_some, Option.map_some, Sketch.loopStart, Sketch.tag_eq]
    rcases h node rfl with hdeclaration | hexpression
    · rw [if_pos hdeclaration.tag_eq]
      exact startRead_declaration (declarationPieces separator hdeclaration)
    · rw [if_neg hexpression.tag_ne]
      exact startRead_expression (legible_expression separator hexpression 1 (by omega))

theorem statementRead_for
    (hinit : ∀ node ∈ init, Printable.Declaration node ∨ Printable.Expression node)
    (htest : ∀ node ∈ test, Printable.Expression node)
    (hstep : ∀ node ∈ step, Printable.Expression node)
    (hbody : StatementRead bodyPieces body bodyOpen) :
    StatementRead (token "for" :: token "(" ::
        (Sketch.loopStart (init.map (Node.sketch separator)) ++
          (Sketch.operand (test.map (Node.sketch separator)) Precedence.comma ++
            token ";" :: (Sketch.operand (step.map (Node.sketch separator)) Precedence.comma ++
              token ")" :: bodyPieces))))
      (.forLoop (init.map Node.bare) (test.map Node.bare) (step.map Node.bare) body) bodyOpen := by
  have hstart : StartRead (Sketch.loopStart (init.map (Node.sketch separator)))
      (init.map Node.bare) := startRead hinit
  have hisWord : Word.isWord "for" = true := by decide
  have hlast : ∀ next, Neat next →
      Neat (Sketch.operand (step.map (Node.sketch separator)) Precedence.comma ++
        token ")" :: (bodyPieces ++ next)) := by
    intro next hnext
    exact neat_append.mpr ⟨neat_operand hstep, by simp [hbody.neat, hnext]⟩
  have hmiddle : ∀ next, Neat next →
      Neat (Sketch.operand (test.map (Node.sketch separator)) Precedence.comma ++
        token ";" :: (Sketch.operand (step.map (Node.sketch separator)) Precedence.comma ++
          token ")" :: (bodyPieces ++ next))) := fun next hnext =>
    neat_append.mpr ⟨neat_operand htest, neat_token.mpr (hlast next hnext)⟩
  have hheader : ∀ next, Neat next →
      Neat (Sketch.loopStart (init.map (Node.sketch separator)) ++
        (Sketch.operand (test.map (Node.sketch separator)) Precedence.comma ++
          token ";" :: (Sketch.operand (step.map (Node.sketch separator)) Precedence.comma ++
            token ")" :: (bodyPieces ++ next)))) := fun next hnext =>
    neat_append.mpr ⟨hstart.neat, hmiddle next hnext⟩
  have hneat := hheader [] neat_nil
  rw [List.append_nil] at hneat
  refine statementRead_of_word hisWord (by decide) (neat_token.mpr hneat) fun next hnext hopen => ?_
  simp only [List.append_assoc, List.cons_append]
  have hrest := hheader next hnext
  refine statement_of_for (word_seen hisWord (neat_token.mpr hrest)) ?_
  rw [Statement.forLoop, bind_read _ (keyword_seen hisWord (neat_token.mpr hrest)),
    bind_read _ (punct_seen '(' "(" rfl rfl hrest),
    bind_read _ (hstart.read _ (hmiddle next hnext)),
    bind_read _ (punct_seen ';' ";" rfl rfl (hmiddle next hnext)),
    bind_read _ (optional_expression_seen htest ';' ";" rfl rfl (hlast next hnext)),
    bind_read _ (punct_seen ';' ";" rfl rfl (hlast next hnext)),
    bind_read _ (optional_expression_seen hstep ')' ")" rfl rfl
      (neat_append.mpr ⟨hbody.neat, hnext⟩)),
    bind_read _ (punct_seen ')' ")" rfl rfl (neat_append.mpr ⟨hbody.neat, hnext⟩)),
    bind_read _ (hbody.read next hnext hopen), pure_apply]

end Loops

/-! ### All statements -/

section Statements

open Braces

variable {mark : Mark}

theorem Sketch.statement_eq_declaration {separator : String} {node : Node}
    (h : node.tag = .declaration) :
    (node.sketch separator).statement = (node.sketch separator).declaration := by
  rw [Node.sketch_eq]
  show Sketch.statementOf separator node _ = Sketch.declarationOf node _
  simp only [Sketch.statementOf, h]

section Equations

variable {separator : String} {init test step value : Option Node} {body : Node}

theorem Sketch.for_eq :
    ((Node.mk mark .forLoop "" [] [.ofOption init, .ofOption test, .ofOption step,
      .one body]).sketch separator).statement =
        token "for" :: token "(" :: (Sketch.loopStart (init.map (Node.sketch separator)) ++
          (Sketch.operand (test.map (Node.sketch separator)) Precedence.comma ++
            token ";" :: (Sketch.operand (step.map (Node.sketch separator)) Precedence.comma ++
              token ")" :: (body.sketch separator).statement))) := by
  rw [Node.sketch_eq]
  simp only [List.map_cons, List.map_nil, Slot.map_ofOption]
  show token "for" :: token "(" :: (Sketch.loopStart (Slot.childAt _ 0) ++
    Sketch.operand (Slot.childAt _ 1) Precedence.comma ++
      token ";" :: (Sketch.operand (Slot.childAt _ 2) Precedence.comma) ++
        token ")" :: (body.sketch separator).statement) = _
  rw [Slot.childAt_ofOption rfl, Slot.childAt_ofOption rfl, Slot.childAt_ofOption rfl]
  simp only [List.append_assoc, List.cons_append]

theorem Sketch.scope_eq {statements : List Node} :
    ((Node.mk mark .scope "" [] [.many statements]).sketch separator).statement =
      token "\x7b" :: (statements.flatMap (fun node => (node.sketch separator).statement) ++
        [token "\x7d"]) := by
  rw [Node.sketch_eq]
  show token "\x7b" :: (((statements.map (Node.sketch separator)).map Sketch.statement).flatten ++
    [token "\x7d"]) = _
  rw [List.map_map, ← List.flatMap_def]
  rfl

theorem Sketch.return_eq :
    ((Node.mk mark .returnStatement "" [] [.ofOption value]).sketch separator).statement =
      token "return" ::
        (Sketch.operand (value.map (Node.sketch separator)) Precedence.comma ++ [token ";"]) := by
  rw [Node.sketch_eq]
  simp only [List.map_cons, List.map_nil, Slot.map_ofOption]
  show token "return" :: (Sketch.operand (Slot.childAt _ 0) Precedence.comma ++ [token ";"]) = _
  rw [Slot.childAt_ofOption rfl]

theorem bare_for :
    (Node.mk mark .forLoop "" [] [.ofOption init, .ofOption test, .ofOption step,
      .one body]).bare =
        .forLoop (init.map Node.bare) (test.map Node.bare) (step.map Node.bare) body.bare := by
  simp only [Node.bare_mk, List.map_cons, List.map_nil, Slot.map_ofOption]
  rfl

theorem bare_return :
    (Node.mk mark .returnStatement "" [] [.ofOption value]).bare =
      .returnStatement (value.map Node.bare) := by
  simp only [Node.bare_mk, List.map_cons, List.map_nil, Slot.map_ofOption]
  rfl

end Equations

/-- Every printable statement is read back. -/
theorem statementRead (separator : String) {node : Node} (h : Printable.Statement node) :
    StatementRead (node.sketch separator).statement node.bare (endsWithOpenIf node) := by
  induction h with
  | directive htext =>
    rw [Node.sketch_eq]
    exact statementRead_directive htext
  | declaration hnode =>
    rw [Sketch.statement_eq_declaration hnode.tag_eq]
    exact statementRead_declaration (declarationPieces separator hnode)
  | @scope mark statements hstatements ih =>
    rw [Sketch.scope_eq, Node.bare_mk]
    exact statementRead_scope ih
  | @expressionStatement mark value hvalue =>
    rw [Node.sketch_eq]
    cases value with
    | none => exact statementRead_empty
    | some node =>
      exact statementRead_expression (legible_expression separator (hvalue node rfl) 1 (by omega))
  | @ifThen mark test thenBranch htest hthen ih =>
    rw [Node.sketch_eq, endsWithOpenIf_eq]
    have h := statementRead_ifThen (legible_expression separator htest 1 (by omega)) ih
    show StatementRead (token "if" :: (token "(" :: ((test.sketch separator).expression 1 ++
      [token ")"]) ++ (thenBranch.sketch separator).statement ++ [])) _ _
    simp only [List.append_assoc, List.cons_append, List.nil_append, List.append_nil]
    exact h
  | @ifElse mark test thenBranch elseBranch htest hthen helse hkeeps ihThen ihElse =>
    rw [Node.sketch_eq, endsWithOpenIf_eq]
    rw [hkeeps] at ihThen
    have h := statementRead_ifElse (legible_expression separator htest 1 (by omega)) ihThen ihElse
    show StatementRead (token "if" :: (token "(" :: ((test.sketch separator).expression 1 ++
      [token ")"]) ++ (thenBranch.sketch separator).statement ++
        token "else" :: (elseBranch.sketch separator).statement)) _ _
    simp only [List.append_assoc, List.cons_append, List.nil_append]
    exact h
  | @forLoop mark init test step body hinit htest hstep hbody ih =>
    rw [endsWithOpenIf_eq, Sketch.for_eq, bare_for]
    exact statementRead_for hinit htest hstep ih
  | @whileLoop mark test body htest hbody ih =>
    rw [Node.sketch_eq, endsWithOpenIf_eq]
    have h := statementRead_while (legible_expression separator htest 1 (by omega)) ih
    show StatementRead (token "while" :: (token "(" :: ((test.sketch separator).expression 1 ++
      [token ")"]) ++ (body.sketch separator).statement)) _ _
    simp only [List.append_assoc, List.cons_append, List.nil_append]
    exact h
  | @doWhileLoop mark body test hbody htest ih =>
    rw [Node.sketch_eq]
    show StatementRead (token "do" :: ((body.sketch separator).statement ++ token "while" ::
      (token "(" :: ((test.sketch separator).expression 1 ++ [token ")"])) ++ [token ";"])) _ _
    simp only [List.append_assoc, List.cons_append, List.nil_append]
    exact statementRead_do ih (legible_expression separator htest 1 (by omega))
  | @returnStatement mark value hvalue =>
    rw [Sketch.return_eq, bare_return]
    exact statementRead_return hvalue
  | jump hkeyword =>
    rw [Node.sketch_eq]
    exact statementRead_jump hkeyword

end Statements

end GlslShrink
