import GlslShrink.Proofs.Reading.Cut

/-!
Reading ends. The recursive readers are unfolded as deep as the text is long. That is deep enough:
every reader of the grammar takes something before it uses itself again, so deeper unfoldings read
the same, and the readers solve the equations by which the grammar is written (`grammarEnds`). What
a reader leaves is a part at the end of its text, and so is the place where it gets stuck
(`advances_of_mem`).
-/

set_option autoImplicit false

namespace GlslShrink

open Reader Token Text

/-! ### Recursion that is not cut off -/

namespace Reader

variable {α β ι : Type}

/-- The readers solve the equations of the family, and every unfolding of it that is deeper than the
text is long reads as they do. -/
structure Solve (readers : ι → Reader α) (family : (ι → Reader α) → ι → Reader α) : Prop where
  equation : ∀ i, readers i = family readers i
  deeper : ∀ depth i text, text.length < depth → unfolding family depth i text = readers i text

theorem Contracts.solve {cost : Nat} {family : (ι → Reader α) → ι → Reader α}
    (h : Contracts cost family) : Solve (fix family) family where
  equation := h.fix_eq
  deeper depth i text hdepth :=
    (unfolding_agree (fun m _ => h m) (text.length + 1) (Nat.le_refl _) depth (text.length + 1)
      hdepth (Nat.le_refl _) i text (Nat.lt_succ_self _)).1

/-- The equation of `many`. -/
def repetition (p : Reader α) (more : Unit → Reader (List α)) : Unit → Reader (List α) :=
  fun _ => p.branch (fun a => return a :: (← more ())) (pure [])

/-- The equation of `manyUntil`. -/
def repetitionUntil (p : Reader α) (close : Reader β) (more : Unit → Reader (List α)) :
    Unit → Reader (List α) :=
  fun _ => close.branch (fun _ => pure []) (do
    let first ← p
    let others ← more ()
    return first :: others)

/-- The equation of `extend`. -/
def extension (step : α → Reader (Option α)) (more : α → Reader α) (a : α) : Reader α := do
  match ← step a with
  | some larger => more larger
  | none => pure a

theorem solve_many {p : Reader α} (hp : p.Takes 1) : Solve (fun _ => many p) (repetition p) :=
  (contracts_many hp).solve

theorem solve_manyUntil {p : Reader α} {close : Reader β} (hp : p.Takes 1)
    (hclose : close.Takes 1) : Solve (fun _ => manyUntil p close) (repetitionUntil p close) :=
  (contracts_manyUntil hp hclose).solve

theorem solve_extend {step : α → Reader (Option α)} (h : ∀ n a, StepsAgree n (step a) (step a)) :
    Solve (extend step) (extension step) :=
  (contracts_extend h).solve

end Reader

namespace Expression

/-- The equation of expressions. -/
def family (inner : Breadth → Reader Node) : Breadth → Reader Node
  | .withComma => commaList inner
  | .withoutComma => assignment inner

/-- The equation of operands with operators in front of them. -/
def operandFamily (again : Unit → Reader Node) : Unit → Reader Node :=
  fun _ => (operator.guarded Precedence.isLeading).branch
    (fun operator => do
      let operand ← again ()
      return .unary operator operand)
    (trailed expression)

/-- The equation of operators by level. -/
def levelFamily (again : Nat → Reader Node) (least : Nat) : Reader Node := do
  let first ← unary expression
  extend (joined again least) first

theorem solve_expression : Solve expression family := by
  have hcontracts : Contracts 1 family := by
    intro n p q h breadth
    cases breadth with
    | withComma => exact agree_commaList h
    | withoutComma => exact agree_assignment h
  exact hcontracts.solve

end Expression

/-- The equation of declarations. -/
def Declaration.family (again : Unit → Reader Node) : Unit → Reader Node :=
  fun _ => do
    let declared ← body (again ())
    punct ';'
    return declared

/-- The equation of statements. -/
def Statement.family (again : Unit → Reader Node) : Unit → Reader Node :=
  fun _ =>
    let inner := again ()
    block inner <|> ifStatement inner <|> forLoop inner <|> whileLoop inner <|>
      doWhileLoop inner <|> returnStatement <|> jump <|> directive <|> emptyStatement <|>
      Declaration.declaration <|> expressionStatement

/-- The readers that are read over and over, for their words and for their trees. -/
def repeatedWords : List (Reader String) :=
  [Declaration.declarationQualifier, Declaration.parameterQualifier,
    Declaration.precisionQualifier, do punct ','; Declaration.layoutEntry]

@[inherit_doc repeatedWords]
def repeatedTrees : List (Reader Node) :=
  [Declaration.declaration, do punct ','; Declaration.declarator,
    do punct ','; Declaration.parameter, do punct ','; Expression.expression .withoutComma]

/-- No recursion and no repetition of the grammar is cut off. -/
structure GrammarEnds : Prop where
  expressions : Solve Expression.expression Expression.family
  operands : Solve (fun _ => Expression.unary Expression.expression) Expression.operandFamily
  levels : Solve (Expression.binary Expression.expression) Expression.levelFamily
  declarations : Solve (fun _ => Declaration.declaration) Declaration.family
  statements : Solve (fun _ => Statement.statement) Statement.family
  words : ∀ p ∈ repeatedWords, Solve (fun _ => many p) (repetition p)
  trees : ∀ p ∈ repeatedTrees, Solve (fun _ => many p) (repetition p)
  blocks : Solve (fun _ => manyUntil Statement.statement (punct '}'))
    (repetitionUntil Statement.statement (punct '}'))
  trailers : Solve (extend (Expression.trailer Expression.expression))
    (extension (Expression.trailer Expression.expression))
  operators : ∀ least,
    Solve (extend (Expression.joined (Expression.binary Expression.expression) least))
      (extension (Expression.joined (Expression.binary Expression.expression) least))
  commas : Solve (extend (Expression.listed Expression.expression))
    (extension (Expression.listed Expression.expression))
  shaders : ∀ source isFragment bound text, text.length ≤ bound →
    Source.topLevels source isFragment bound text =
      Source.topLevels source isFragment text.length text

/-- More rounds than characters make no difference. -/
theorem Source.topLevels_of_le {source : List Char} {isFragment : Bool} {bound bound' : Nat}
    {text : List Char} (h : text.length ≤ bound) (h' : text.length ≤ bound') :
    topLevels source isFragment bound text = topLevels source isFragment bound' text := by
  induction bound generalizing bound' text with
  | zero =>
    rw [List.length_eq_zero_iff.mp (Nat.le_zero.mp h), topLevels, topLevels]
  | succ bound ih =>
    cases text with
    | nil => rw [topLevels, topLevels]
    | cons c more =>
      obtain ⟨bound', rfl⟩ : ∃ b, bound' = b + 1 := ⟨bound' - 1, by rw [List.length_cons] at h'; omega⟩
      rw [topLevels, topLevels]
      · cases hread : Statement.topLevel (c :: more) with
        | stuck place => rfl
        | read node next =>
          have htakes := Statement.takes_topLevel _ _ _ hread
          have hnext : topLevels source isFragment bound next =
              topLevels source isFragment bound' next := ih (by omega) (by omega)
          simp only [hnext]
      · exact List.cons_ne_nil c more
      · exact List.cons_ne_nil c more

theorem takes_of_mem_repeatedWords : ∀ p ∈ repeatedWords, p.Takes 1 := by
  simp only [repeatedWords, List.forall_mem_cons]
  exact ⟨Declaration.takes_declarationQualifier, Declaration.takes_parameterQualifier,
    Declaration.takes_precisionQualifier, Declaration.takes_comma_layoutEntry,
    List.forall_mem_nil _⟩

theorem takes_of_mem_repeatedTrees : ∀ p ∈ repeatedTrees, p.Takes 1 := by
  have hcomma : ∀ {p : Reader Node}, p.Takes 1 → (do punct ','; p).Takes 1 := fun hp =>
    (takes_punct ',').bind (fun _ => hp) (Nat.le_add_right 1 1)
  simp only [repeatedTrees, List.forall_mem_cons]
  exact ⟨Declaration.takes_declaration, hcomma Declaration.takes_declarator,
    hcomma Declaration.takes_parameter, hcomma (Expression.takes_expression _),
    List.forall_mem_nil _⟩

theorem grammarEnds : GrammarEnds where
  expressions := Expression.solve_expression
  operands := Expression.contracts_unary.solve
  levels := Expression.contracts_binary.solve
  declarations := Declaration.contracts_declaration.solve
  statements := Statement.contracts_statement.solve
  words p hp := solve_many (takes_of_mem_repeatedWords p hp)
  trees p hp := solve_many (takes_of_mem_repeatedTrees p hp)
  blocks := solve_manyUntil Statement.takes_statement (takes_punct _)
  trailers := solve_extend Expression.trailer_steps
  operators least := solve_extend (Expression.joined_steps least)
  commas := solve_extend Expression.listed_steps
  shaders _ _ _ _ h := Source.topLevels_of_le h (Nat.le_refl _)

/-! ### What is left of the text -/

/-- What the reader leaves of a text is a shorter part at its end, and where it gets stuck a part at
the end is left. -/
structure Reader.Advances {α : Type} (p : Reader α) : Prop where
  read : ∀ {text a rest}, p text = .read a rest → rest <:+ text ∧ rest.length < text.length
  stuck : ∀ {text place}, p text = .stuck place → place <:+ text

theorem Reader.Heeds.advances {α : Type} {p : Reader α} {wall : Char} {depth : Nat}
    (hp : ∀ n, p.Heeds n wall depth depth) (htakes : p.Takes 1) : p.Advances where
  read {text a rest} hread := ⟨(hp (text.length + 1)).rest (Nat.lt_succ_self _) hread,
    htakes text a rest hread⟩
  stuck {text _} hstuck := (hp (text.length + 1)).place (Nat.lt_succ_self _) hstuck

/-- The readers that the start rules use, and that of declarations. -/
def grammarReaders : List (Reader Node) :=
  [Expression.expression .withComma, Expression.expression .withoutComma, Statement.statement,
    Declaration.declaration, Statement.topLevel]

-- any fence will do here: a closing parenthesis is passed by all of them
theorem advances_of_mem : ∀ p ∈ grammarReaders, p.Advances := by
  have hpass : ∀ c, c ≠ ')' → Passable ')' c 0 := fun c hc _ hwall => hc hwall.symm
  have hbrace := hpass '{' (by decide)
  have hopen := hpass '(' (by decide)
  have hend := hpass ';' (by decide)
  simp only [grammarReaders, List.forall_mem_cons]
  refine ⟨?_, ?_, ?_, ?_, ?_, List.forall_mem_nil _⟩
  · exact Heeds.advances (fun n => Expression.heeds_expression n rfl _ hopen)
      (Expression.takes_expression _)
  · exact Heeds.advances (fun n => Expression.heeds_expression n rfl _ hopen)
      (Expression.takes_expression _)
  · exact Heeds.advances (fun _ => Statement.heeds_statement rfl hbrace hopen hend)
      Statement.takes_statement
  · exact Heeds.advances (fun _ => Declaration.heeds_declaration rfl hbrace hopen hend)
      Declaration.takes_declaration
  · exact Heeds.advances (fun _ => Statement.heeds_topLevel rfl hbrace hopen hend)
      Statement.takes_topLevel

end GlslShrink
