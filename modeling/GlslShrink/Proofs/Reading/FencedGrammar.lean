import GlslShrink.Proofs.Reading.FencedTokens

/-!
Every reader of the grammar keeps to a fence: expressions to all but an opening parenthesis,
statements to all but that, an opening brace and a semicolon, and what stands inside further
brackets to all of them. A reader that ends with one of these is cut in two here: the head keeps to
a fence, and the fence is what comes next (`Declaration.precisionHead`, `Statement.functionHead`).
-/

set_option autoImplicit false

namespace GlslShrink

open Reader Token Text

theorem Reader.bind_bind {α β γ : Type} (p : Reader α) (f : α → Reader β) (g : β → Reader γ) :
    p >>= f >>= g = p >>= fun a => f a >>= g := by
  funext text
  simp only [bind]
  cases p text <;> rfl

/-! ### Expressions -/

namespace Expression

variable {n depth : Nat} {wall : Char}

theorem heeds_emptyByVoid (hwall : isHard wall = true) :
    emptyByVoid.Heeds n wall (depth + 1) (depth + 1) :=
  (heeds_keyword hwall _).bind fun _ => (heeds_close (Or.inl rfl)).ahead.bind fun _ => heeds_pure _

theorem heeds_operatorFrom (hwall : isHard wall = true) (least : Nat) :
    (operatorFrom least).Heeds n wall depth depth := by
  refine (heeds_operator hwall).bind fun operator => ?_
  cases Precedence.ofBinary? operator with
  | none => exact heeds_refuse
  | some level =>
    show (if least ≤ level then pure (operator, level) else refuse :
      Reader (String × Nat)).Heeds n wall depth depth
    split
    · exact heeds_pure _
    · exact heeds_refuse

theorem heeds_assignmentTo (hwall : isHard wall = true) (target : Node) :
    (assignmentTo target).Heeds n wall depth depth := by
  unfold assignmentTo
  split
  · exact (heeds_operator hwall).guarded _
  · exact heeds_refuse

section Round

-- expressions on texts of fewer than `n` characters, wherever an opening parenthesis is passed
variable (hwall : isHard wall = true)
  (h : ∀ breadth depth, Passable wall '(' depth → (expression breadth).Heeds n wall depth depth)
  (hpass : Passable wall '(' depth)

include hwall h hpass

theorem heeds_call : (call expression).Heeds (n + 1) wall depth depth := by
  refine (heeds_identifier hwall).bindAfter takes_identifier fun name => ?_
  refine (heeds_open (Or.inl rfl) hpass).bind fun _ => ?_
  refine ((heeds_emptyByVoid hwall).orElse ((heeds_softPunct hwall rfl).separated
    (h _ _ (passable_inside _ _ _)) (takes_expression _) (takes_punct _))).bind fun arguments => ?_
  exact (heeds_close (Or.inl rfl)).bind fun _ => heeds_pure _

omit hwall in
theorem heeds_parenthesized : (parenthesized expression).Heeds (n + 1) wall depth depth := by
  refine (heeds_open (Or.inl rfl) hpass).bindAfter (takes_punct _) fun _ => ?_
  refine (h _ _ (passable_inside _ _ _)).bind fun _ => ?_
  exact (heeds_close (Or.inl rfl)).bind fun _ => heeds_pure _

theorem heeds_primary : (primary expression).Heeds (n + 1) wall depth depth := by
  have hleaf : ∀ {α : Type} {r : Reader α} (f : α → Node), r.Heeds (n + 1) wall depth depth →
      (do return f (← r) : Reader Node).Heeds (n + 1) wall depth depth :=
    fun f hr => hr.bind fun _ => heeds_pure _
  refine (hleaf _ (heeds_floatLiteral hwall)).orElse ((hleaf _ (heeds_intLiteral hwall)).orElse ?_)
  refine (hleaf (fun _ => .boolLiteral true) (heeds_keyword hwall _)).orElse
    ((hleaf (fun _ => .boolLiteral false) (heeds_keyword hwall _)).orElse ?_)
  exact (heeds_call hwall h hpass).orElse
    ((hleaf _ (heeds_identifier hwall)).orElse (heeds_parenthesized h hpass))

theorem heeds_trailer (base : Node) : (trailer expression base).Heeds (n + 1) wall depth depth := by
  refine (heeds_softPunct hwall rfl).branchAfter (takes_punct _) (fun _ => ?_) ?_
  · refine (h _ _ hpass).bind fun position => ?_
    exact (heeds_softPunct hwall rfl).bind fun _ => heeds_pure _
  refine (heeds_softPunct hwall rfl).branch (fun _ => ?_) ?_
  · exact (heeds_word hwall).bind fun _ => heeds_pure _
  · exact (heeds_update hwall).branch (fun _ => heeds_pure _) (heeds_pure _)

theorem heeds_trailed : (trailed expression).Heeds (n + 1) wall depth depth :=
  (heeds_primary hwall h hpass).bind fun base =>
    Heeds.extend (heeds_trailer hwall h hpass) trailer_steps base

theorem heeds_unary {m : Nat} (hm : m ≤ n + 1) : (unary expression).Heeds m wall depth depth := by
  induction m with
  | zero => exact heeds_zero _
  | succ m ih =>
    rw [unary_eq]
    refine ((heeds_operator hwall).guarded _).branchAfter (takes_operator.guarded _)
      (fun operator => ?_) ((heeds_trailed hwall h hpass).mono hm)
    exact (ih (by omega)).bind fun _ => heeds_pure _

theorem heeds_binary {m : Nat} (hm : m ≤ n + 1) (least : Nat) :
    (binary expression least).Heeds m wall depth depth := by
  induction m generalizing least with
  | zero => exact heeds_zero _
  | succ m ih =>
    rw [binary_eq]
    refine (heeds_unary hwall h hpass hm).bind fun first => ?_
    refine Heeds.extend (fun left => ?_) (joined_steps least) first
    refine (heeds_operatorFrom hwall least).branchAfter (takes_operatorFrom least)
      (fun operator => ?_) (heeds_pure _)
    exact (ih (by omega) (operator.2 + 1)).bind fun _ => heeds_pure _

theorem heeds_conditional : (conditional expression).Heeds (n + 1) wall depth depth := by
  refine (heeds_binary hwall h hpass (Nat.le_refl _) _).bind fun condition => ?_
  refine (heeds_softPunct hwall rfl).branchAfter (takes_punct _) (fun _ => ?_) (heeds_pure _)
  refine (h _ _ hpass).bind fun ifTrue => ?_
  refine (heeds_softPunct hwall rfl).bind fun _ => ?_
  exact (h _ _ hpass).bind fun _ => heeds_pure _

theorem heeds_assignment : (assignment expression).Heeds (n + 1) wall depth depth := by
  refine (heeds_conditional hwall h hpass).bind fun target => ?_
  refine (heeds_assignmentTo hwall target).branchAfter (takes_assignmentTo target)
    (fun operator => ?_) (heeds_pure _)
  exact (h _ _ hpass).bind fun _ => heeds_pure _

theorem heeds_commaList : (commaList expression).Heeds (n + 1) wall depth depth := by
  refine (heeds_assignment hwall h hpass).bind fun first => ?_
  refine Heeds.extend (fun left => ?_) listed_steps first
  refine (heeds_softPunct hwall rfl).branch (fun _ => ?_) (heeds_pure _)
  exact (heeds_assignment hwall h hpass).bind fun _ => heeds_pure _

end Round

variable (n)

theorem heeds_expression (hwall : isHard wall = true) (breadth : Breadth)
    (hpass : Passable wall '(' depth) : (expression breadth).Heeds n wall depth depth := by
  induction n generalizing breadth depth with
  | zero => exact heeds_zero _
  | succ n ih =>
    cases breadth with
    | withComma =>
      rw [expression_withComma]
      exact heeds_commaList hwall (fun breadth depth hpass => ih breadth hpass) hpass
    | withoutComma =>
      rw [expression_withoutComma]
      exact heeds_assignment hwall (fun breadth depth hpass => ih breadth hpass) hpass

end Expression

/-! ### Declarations -/

namespace Declaration

open Expression

variable {n depth : Nat} {wall : Char}

theorem heeds_layoutEntry (hwall : isHard wall = true) : layoutEntry.Heeds n wall depth depth := by
  refine (heeds_word hwall).bind fun name => ?_
  refine ((heeds_softPunct hwall rfl).bind fun _ => heeds_intLiteral hwall).optional.bind
    fun value => ?_
  cases value with
  | none => exact heeds_pure _
  | some number => exact heeds_pure _

theorem heeds_layoutQualifier (hwall : isHard wall = true) (hpass : Passable wall '(' depth) :
    layoutQualifier.Heeds n wall depth depth := by
  refine (heeds_keyword hwall _).bind fun _ => ?_
  refine (heeds_open (Or.inl rfl) hpass).bind fun _ => ?_
  refine ((heeds_softPunct hwall rfl).separated1 (heeds_layoutEntry hwall) takes_layoutEntry
    (takes_punct _)).bind fun _ => ?_
  exact (heeds_close (Or.inl rfl)).bind fun _ => heeds_pure _

theorem heeds_declarationQualifier (hwall : isHard wall = true) (hpass : Passable wall '(' depth) :
    declarationQualifier.Heeds n wall depth depth :=
  (heeds_layoutQualifier hwall hpass).orElse (heeds_wordIn hwall _)

theorem heeds_typeName (hwall : isHard wall = true) : typeName.Heeds n wall depth depth :=
  (heeds_identifier hwall).bind fun _ => heeds_pure _

theorem heeds_arraySize (hwall : isHard wall = true) (hpass : Passable wall '(' depth) :
    arraySize.Heeds n wall depth depth := by
  refine (heeds_softPunct hwall rfl).bind fun _ => ?_
  refine ((heeds_conditional hwall (fun breadth depth => heeds_expression n hwall breadth)
    hpass).mono (Nat.le_succ n)).bind fun _ => ?_
  exact (heeds_softPunct hwall rfl).bind fun _ => heeds_pure _

theorem heeds_declarator (hwall : isHard wall = true) (hpass : Passable wall '(' depth) :
    declarator.Heeds n wall depth depth := by
  refine (heeds_identifier hwall).bind fun name => ?_
  refine (heeds_arraySize hwall hpass).optional.bind fun size => ?_
  refine (heeds_equals hwall).branch (fun _ => ?_) (heeds_pure _)
  exact (heeds_expression n hwall _ hpass).bind fun _ => heeds_pure _

theorem heeds_declarators (hwall : isHard wall = true) (hpass : Passable wall '(' depth)
    (type : Node) : (declarators type).Heeds n wall depth depth := by
  unfold declarators
  split
  · exact (heeds_softPunct hwall rfl).separated (heeds_declarator hwall hpass) takes_declarator
      (takes_punct _)
  · exact (heeds_softPunct hwall rfl).separated1 (heeds_declarator hwall hpass) takes_declarator
      (takes_punct _)

section Round

-- the members of a structure stand inside its braces, where everything is passed
variable (hwall : isHard wall = true)
  (h : ∀ depth, declaration.Heeds n wall (depth + 1) (depth + 1)) (hbrace : Passable wall '{' depth)

include hwall h hbrace

theorem heeds_typeSpecifier : (typeSpecifier declaration).Heeds (n + 1) wall depth depth := by
  refine Heeds.orElse ?_ (heeds_typeName hwall)
  refine (heeds_keyword hwall _).bindAfter (takes_keyword _) fun _ => ?_
  refine (heeds_identifier hwall).optional.bind fun name => ?_
  refine (heeds_open (Or.inr rfl) hbrace).bind fun _ => ?_
  refine ((h depth).many1 takes_declaration).bind fun members => ?_
  exact (heeds_close (Or.inr rfl)).bind fun _ => heeds_pure _

theorem heeds_body (hpass : Passable wall '(' depth) :
    (body declaration).Heeds (n + 1) wall depth depth := by
  refine ((heeds_declarationQualifier hwall hpass).many takes_declarationQualifier).bind
    fun qualifiers => ?_
  refine (heeds_typeSpecifier hwall h hbrace).bind fun type => ?_
  exact (heeds_declarators hwall hpass type).bind fun _ => heeds_pure _

end Round

theorem heeds_declaration (hwall : isHard wall = true) (hbrace : Passable wall '{' depth)
    (hpass : Passable wall '(' depth) (hend : Passable wall ';' depth) :
    declaration.Heeds n wall depth depth := by
  induction n generalizing depth with
  | zero => exact heeds_zero _
  | succ n ih =>
    have hmember : ∀ depth, declaration.Heeds n wall (depth + 1) (depth + 1) := fun depth =>
      ih (passable_inside _ _ _) (passable_inside _ _ _) (passable_inside _ _ _)
    rw [declaration_eq]
    refine (heeds_body hwall hmember hbrace hpass).bind fun declared => ?_
    exact (heeds_semicolon hend).bind fun _ => heeds_pure _

theorem heeds_member (hwall : isHard wall = true) (depth : Nat) :
    declaration.Heeds n wall (depth + 1) (depth + 1) :=
  heeds_declaration hwall (passable_inside _ _ _) (passable_inside _ _ _) (passable_inside _ _ _)

theorem heeds_type (hwall : isHard wall = true) (hbrace : Passable wall '{' depth) :
    (typeSpecifier declaration).Heeds n wall depth depth :=
  (heeds_typeSpecifier hwall (heeds_member hwall) hbrace).mono (Nat.le_succ n)

theorem heeds_declared (hwall : isHard wall = true) (hbrace : Passable wall '{' depth)
    (hpass : Passable wall '(' depth) : (body declaration).Heeds n wall depth depth :=
  (heeds_body hwall (heeds_member hwall) hbrace hpass).mono (Nat.le_succ n)

/-- A precision statement without the semicolon at its end. -/
def precisionHead : Reader (String × Node) := do
  let _ ← keyword "precision"
  let qualifier ← precisionQualifier
  let type ← typeName
  return (qualifier, type)

theorem precisionStatement_eq :
    precisionStatement = (do
      let head ← precisionHead
      punct ';'
      return .precision head.1 head.2) := by
  simp only [precisionHead, bind_bind]
  rfl

theorem heeds_precisionHead (hwall : isHard wall = true) :
    precisionHead.Heeds n wall depth depth := by
  refine (heeds_keyword hwall _).bind fun _ => ?_
  refine (heeds_wordIn hwall _).bind fun _ => ?_
  exact (heeds_typeName hwall).bind fun _ => heeds_pure _

theorem heeds_precisionStatement (hwall : isHard wall = true) (hend : Passable wall ';' depth) :
    precisionStatement.Heeds n wall depth depth := by
  rw [precisionStatement_eq]
  refine (heeds_precisionHead hwall).bind fun _ => ?_
  exact (heeds_semicolon hend).bind fun _ => heeds_pure _

theorem heeds_parameter (hwall : isHard wall = true) (hbrace : Passable wall '{' depth)
    (hpass : Passable wall '(' depth) : parameter.Heeds n wall depth depth := by
  refine ((heeds_wordIn hwall _).many takes_parameterQualifier).bind fun qualifiers => ?_
  refine (heeds_type hwall hbrace).bind fun type => ?_
  refine (heeds_identifier hwall).optional.bind fun name => ?_
  exact (heeds_arraySize hwall hpass).optional.bind fun _ => heeds_pure _

theorem heeds_parameterList (hwall : isHard wall = true) (hpass : Passable wall '(' depth) :
    parameterList.Heeds n wall depth depth := by
  refine (heeds_open (Or.inl rfl) hpass).bind fun _ => ?_
  refine ((heeds_emptyByVoid hwall).orElse ((heeds_softPunct hwall rfl).separated ?_
    takes_parameter (takes_punct _))).bind fun _ => ?_
  · exact heeds_parameter hwall (passable_inside _ _ _) (passable_inside _ _ _)
  · exact (heeds_close (Or.inl rfl)).bind fun _ => heeds_pure _

end Declaration

/-! ### Statements -/

namespace Statement

open Expression

variable {n depth : Nat} {wall : Char}

theorem heeds_condition (hwall : isHard wall = true) (hpass : Passable wall '(' depth) :
    condition.Heeds n wall depth depth :=
  (heeds_parenthesized (fun breadth _ => heeds_expression n hwall breadth) hpass).mono
    (Nat.le_succ n)

theorem heeds_returnStatement (hwall : isHard wall = true) (hpass : Passable wall '(' depth)
    (hend : Passable wall ';' depth) : returnStatement.Heeds n wall depth depth := by
  refine (heeds_keyword hwall _).bind fun _ => ?_
  refine (heeds_expression n hwall _ hpass).optional.bind fun _ => ?_
  exact (heeds_semicolon hend).bind fun _ => heeds_pure _

theorem heeds_jump (hwall : isHard wall = true) (hend : Passable wall ';' depth) :
    jump.Heeds n wall depth depth := by
  refine (heeds_wordIn hwall _).bind fun _ => ?_
  exact (heeds_semicolon hend).bind fun _ => heeds_pure _

theorem heeds_directive : directive.Heeds n wall depth depth :=
  Token.heeds_directive.bind fun _ => heeds_pure _

theorem heeds_emptyStatement (hend : Passable wall ';' depth) :
    emptyStatement.Heeds n wall depth depth :=
  (heeds_semicolon hend).bind fun _ => heeds_pure _

theorem heeds_expressionStatement (hwall : isHard wall = true) (hpass : Passable wall '(' depth)
    (hend : Passable wall ';' depth) : expressionStatement.Heeds n wall depth depth := by
  refine (heeds_expression n hwall _ hpass).bind fun _ => ?_
  exact (heeds_semicolon hend).bind fun _ => heeds_pure _

theorem heeds_block (h : statement.Heeds n wall (depth + 1) (depth + 1))
    (hbrace : Passable wall '{' depth) : (block statement).Heeds (n + 1) wall depth depth := by
  refine (heeds_open (Or.inr rfl) hbrace).bindAfter (takes_punct _) fun _ => ?_
  exact (h.manyUntil (heeds_close (Or.inr rfl)) takes_statement (takes_punct _)).bind
    fun _ => heeds_pure _

section Round

variable (hwall : isHard wall = true) (h : statement.Heeds n wall depth depth)
  (hpass : Passable wall '(' depth)

include hwall h hpass

theorem heeds_ifStatement : (ifStatement statement).Heeds (n + 1) wall depth depth := by
  refine (heeds_keyword hwall _).bindAfter (takes_keyword _) fun _ => ?_
  refine (heeds_condition hwall hpass).bind fun test => ?_
  refine h.bind fun thenBranch => ?_
  exact (heeds_keyword hwall _).branch (fun _ => h.bind fun _ => heeds_pure _) (heeds_pure _)

theorem heeds_forLoop : (forLoop statement).Heeds (n + 1) wall depth depth := by
  refine (heeds_keyword hwall _).bindAfter (takes_keyword _) fun _ => ?_
  refine (heeds_open (Or.inl rfl) hpass).bind fun _ => ?_
  have hvalue := heeds_expression n hwall .withComma (passable_inside wall '(' depth)
  refine ((Declaration.heeds_declared hwall (passable_inside _ _ _)
    (passable_inside _ _ _)).orElse hvalue).optional.bind fun init => ?_
  refine (heeds_semicolon (passable_inside _ _ _)).bind fun _ => ?_
  refine hvalue.optional.bind fun test => ?_
  refine (heeds_semicolon (passable_inside _ _ _)).bind fun _ => ?_
  refine hvalue.optional.bind fun step => ?_
  exact (heeds_close (Or.inl rfl)).bind fun _ => h.bind fun _ => heeds_pure _

theorem heeds_whileLoop : (whileLoop statement).Heeds (n + 1) wall depth depth := by
  refine (heeds_keyword hwall _).bindAfter (takes_keyword _) fun _ => ?_
  refine (heeds_condition hwall hpass).bind fun test => ?_
  exact h.bind fun _ => heeds_pure _

theorem heeds_doWhileLoop (hend : Passable wall ';' depth) :
    (doWhileLoop statement).Heeds (n + 1) wall depth depth := by
  refine (heeds_keyword hwall _).bindAfter (takes_keyword _) fun _ => ?_
  refine h.bind fun body => ?_
  refine (heeds_keyword hwall _).bind fun _ => ?_
  refine (heeds_condition hwall hpass).bind fun test => ?_
  exact (heeds_semicolon hend).bind fun _ => heeds_pure _

end Round

theorem heeds_statement (hwall : isHard wall = true) (hbrace : Passable wall '{' depth)
    (hpass : Passable wall '(' depth) (hend : Passable wall ';' depth) :
    statement.Heeds n wall depth depth := by
  induction n generalizing depth with
  | zero => exact heeds_zero _
  | succ n ih =>
    have h := ih hbrace hpass hend
    have hinner := ih (passable_inside wall '{' depth) (passable_inside _ _ _)
      (passable_inside _ _ _)
    rw [statement_eq]
    refine (heeds_block hinner hbrace).orElse ((heeds_ifStatement hwall h hpass).orElse
      ((heeds_forLoop hwall h hpass).orElse ((heeds_whileLoop hwall h hpass).orElse
        ((heeds_doWhileLoop hwall h hpass hend).orElse ?_))))
    refine (heeds_returnStatement hwall hpass hend).orElse ((heeds_jump hwall hend).orElse
      (heeds_directive.orElse ((heeds_emptyStatement hend).orElse ?_)))
    exact (Declaration.heeds_declaration hwall hbrace hpass hend).orElse
      (heeds_expressionStatement hwall hpass hend)

theorem heeds_functionBody (hwall : isHard wall = true) (hbrace : Passable wall '{' depth) :
    (block statement).Heeds n wall depth depth :=
  (heeds_block (heeds_statement hwall (passable_inside _ _ _) (passable_inside _ _ _)
    (passable_inside _ _ _)) hbrace).mono (Nat.le_succ n)

/-- A function up to its parameters. -/
def functionHead : Reader (List String × Node × String) := do
  let qualifiers ← many Declaration.precisionQualifier
  let type ← Declaration.typeSpecifier Declaration.declaration
  let name ← identifier
  return (qualifiers, type, name)

/-- A function after its parameters. -/
def functionTail (head : List String × Node × String) (parameters : List Node) : Reader Node :=
  (punct ';').branch
    (fun _ => pure (.functionPrototype head.1 head.2.1 head.2.2 parameters))
    (do
      let body ← block statement
      return .functionDefinition head.1 head.2.1 head.2.2 parameters body)

theorem function_eq :
    function = (do
      let head ← functionHead
      let parameters ← Declaration.parameterList
      functionTail head parameters) := by
  simp only [functionHead, bind_bind]
  rfl

theorem heeds_functionHead (hwall : isHard wall = true) (hbrace : Passable wall '{' depth) :
    functionHead.Heeds n wall depth depth := by
  refine ((heeds_wordIn hwall _).many Declaration.takes_precisionQualifier).bind fun _ => ?_
  refine (Declaration.heeds_type hwall hbrace).bind fun _ => ?_
  exact (heeds_identifier hwall).bind fun _ => heeds_pure _

theorem heeds_functionTail (hwall : isHard wall = true) (hbrace : Passable wall '{' depth)
    (hend : Passable wall ';' depth) (head : List String × Node × String)
    (parameters : List Node) : (functionTail head parameters).Heeds n wall depth depth := by
  refine (heeds_semicolon hend).branch (fun _ => heeds_pure _) ?_
  exact (heeds_functionBody hwall hbrace).bind fun _ => heeds_pure _

theorem heeds_topLevel (hwall : isHard wall = true) (hbrace : Passable wall '{' depth)
    (hpass : Passable wall '(' depth) (hend : Passable wall ';' depth) :
    topLevel.Heeds n wall depth depth := by
  have hfunction : function.Heeds n wall depth depth := by
    rw [function_eq]
    refine (heeds_functionHead hwall hbrace).bind fun head => ?_
    exact (Declaration.heeds_parameterList hwall hpass).bind
      (heeds_functionTail hwall hbrace hend head)
  exact heeds_directive.orElse ((Declaration.heeds_precisionStatement hwall hend).orElse
    (hfunction.orElse (Declaration.heeds_declaration hwall hbrace hpass hend)))

end Statement

end GlslShrink
