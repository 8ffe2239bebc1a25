import GlslShrink.Proofs.Reading.Stripped
import GlslShrink.Proofs.RoundTrip.Source

/-!
Reading and printing lose nothing but layout and parentheses. What every reader passes over says the
same as the printed pieces of the node that it reads, so a text and its printed form say the same
(`parse_render_stripped`). The word `void` for an empty list is the one thing that is dropped.
-/

set_option autoImplicit false

namespace GlslShrink

open Reader Token Text Piece

/-! ### Pieces -/

theorem Piece.Says.congr {afterSlash : Bool} {pieces others : List Piece} {said more : List Char}
    (h : Says afterSlash pieces said) (hpieces : others = pieces) (hsaid : more = said) :
    Says afterSlash others more :=
  hpieces ▸ hsaid ▸ h

theorem Sketch.statement_eq_statementOf {separator : String} (node : Node) :
    (node.sketch separator).statement =
      Sketch.statementOf separator node (node.slots.map (Slot.map (Node.sketch separator))) := by
  rw [Node.sketch_eq]
  rfl

/-- Parentheses are not said. -/
theorem says_parentheses {pieces : List Piece} {said : List Char} (h : Says false pieces said) :
    Says true (token "(" :: pieces ++ [token ")"]) said := by
  have hopen : Says true [token "("] [] := Copied.told (copied_of_all rfl) fun _ => rfl
  have hclose : Says false [token ")"] [] := Copied.toldAnywhere (copied_of_all rfl)
  exact (hopen.append (h.append hclose)).congr rfl (by simp)

theorem says_operator {op : String} {pieces : List Piece} {said : List Char}
    (hop : op.toList ∈ operators) (h : Says true pieces said) :
    Says false (token op :: pieces) (op.toList ++ said) := by
  rcases operators_cases hop with hslash | ⟨hplain, hbared⟩
  · obtain rfl : op = "/" := String.toList_inj.mp hslash
    exact .slash h
  · rw [← hbared]
    exact .token hplain (fun hfalse => absurd hfalse Bool.false_ne_true) h.anywhere

theorem says_leading {op : String} {pieces : List Piece} {said : List Char}
    (hop : Precedence.isLeading op = true) (h : Says false pieces said) :
    Says true (token op :: pieces) (op.toList ++ said) := by
  have hall : ∀ op ∈ ["++", "--", "+", "-", "!", "~"],
      (op.toList.all isPlain = true ∧ bared op.toList = op.toList) ∧ keepsSlash op = true :=
    forall_mem_of_all (by decide)
  obtain ⟨⟨hplain, hbared⟩, hkeeps⟩ := hall op (by simpa [Precedence.isLeading] using hop)
  rw [← hbared]
  exact .token (Or.inr (List.all_eq_true.mp hplain)) (fun _ => hkeeps) h

namespace Reader

section Lists

variable {α : Type} {p : Reader α} {pieces : α → List Piece}

theorem Tells.many_comma (hp : p.Tells false pieces) :
    (Reader.many (do let _ ← punct ','; p)).Tells false fun values =>
      values.flatMap fun a => token "," :: pieces a := by
  have hitem : (do let _ ← punct ','; p).Tells false fun a => token "," :: pieces a :=
    (tells_punct ',' "," rfl rfl).bind fun _ _ hcomma => hp.imp fun _ _ h => hcomma.append h
  exact hitem.many

theorem says_commaSeparated {a : α} {others : List α} {said more : List Char}
    (h : Says false (pieces a) said)
    (hothers : Says false (others.flatMap fun a => token "," :: pieces a) more) :
    Says false (Sketch.commaSeparated ((a :: others).map pieces)) (said ++ more) := by
  rw [List.map_cons, Sketch.commaSeparated_cons, List.flatMap_map]
  exact h.append hothers

theorem Tells.separated1 (hp : p.Tells false pieces) :
    (separated1 (punct ',') p).Tells false fun values =>
      Sketch.commaSeparated (values.map pieces) :=
  hp.bind fun _ _ h => hp.many_comma.map fun _ _ hothers => says_commaSeparated h hothers

theorem Tells.separated (hp : p.Tells false pieces) :
    (separated (punct ',') p).Tells false fun values =>
      Sketch.commaSeparated (values.map pieces) :=
  hp.branch (fun _ _ h => hp.many_comma.map fun _ _ hothers => says_commaSeparated h hothers)
    (passes_pure .nil)

end Lists

end Reader

namespace Expression

/-- Behind an opening parenthesis no list is read as `void`. -/
theorem emptyByVoid_ne_read {text : List Char} {nodes : List Node} {rest : List Char}
    (h : startsVoidList text = false) : emptyByVoid (skipBlank text) ≠ .read nodes rest := by
  intro hread
  obtain ⟨tail, hname⟩ := emptyByVoid_inv hread
  obtain ⟨next, htext, hnext⟩ := spells_word _ _ _ (guarded_inv hname).1
  have hstart : afterStart? ['v', 'o', 'i', 'd'] (skipBlank text) = some next := by
    rw [htext]
    rfl
  have hclose : ((skipBlank next).head? == some ')') = false := by
    simpa only [startsVoidList, hstart] using h
  rw [← hnext] at hclose
  cases hclose

/-- A list in parentheses, apart from the closing one. -/
theorem passes_list {β : Type} {item : Reader Node} {pieces : Node → List Piece}
    {rest : List Node → Reader β} {S : β → List Char → Prop} (hitem : item.Tells false pieces)
    (hrest : ∀ items said,
      Says false (token "(" :: Sketch.commaSeparated (items.map pieces)) said →
        (rest items).Passes fun b more => S b (said ++ more)) :
    (do
      punct '('
      let items ← emptyByVoid <|> separated (punct ',') item
      rest items).Passes S := by
  have hplain : (do
      punct '('
      let items ← separated (punct ',') item
      rest items).Passes S := by
    refine (tells_punct '(' "(" rfl rfl).bind fun _ said hopen =>
      hitem.separated.bind fun items more hitems => ?_
    exact (hrest items _ (hopen.append hitems)).imp fun b last h => by rwa [List.append_assoc] at h
  -- behind this parenthesis `void` is not an empty list, so the other choice has read the items
  intro text b last hread hready
  obtain ⟨_, middle, hopen, htail⟩ := bind_inv hread
  obtain ⟨items, next, hitems, htail⟩ := bind_inv htail
  have hseparated : separated (punct ',') item middle = .read items next := by
    obtain ⟨inside, rfl, rfl⟩ := spells_punct '(' _ _ _ hopen
    have hvoidless := hready.voidless
    rw [List.singleton_append, hasVoidList_plain _ rfl, Bool.or_eq_false_iff] at hvoidless
    rcases orElse_inv hitems with hvoid | ⟨-, hitems⟩
    · exact absurd hvoid (emptyByVoid_ne_read hvoidless.1)
    · exact hitems
  refine hplain text b last ?_ hready
  exact (bind_read _ hopen).trans ((bind_read _ hseparated).trans htail)

/-- The pieces of an expression, without parentheses around it. -/
def operationPieces (separator : String) (node : Node) : List Piece :=
  (node.sketch separator).operation

/-- The pieces of an expression in a position that asks for a level. -/
def expressionPieces (separator : String) (least : Nat) (node : Node) : List Piece :=
  (node.sketch separator).expression least

variable {separator : String}

theorem operationPieces_eq (node : Node) : operationPieces separator node =
    Sketch.operationOf node (node.slots.map (Slot.map (Node.sketch separator))) := by
  rw [operationPieces, Node.sketch_eq]
  rfl

theorem says_expression {node : Node} {said : List Char}
    (h : Says true (operationPieces separator node) said) (least : Nat) :
    Says true (expressionPieces separator least node) said := by
  unfold expressionPieces Sketch.expression
  split
  · exact says_parentheses h.anywhere
  · exact h

theorem tells_expressionPieces {p : Reader Node} (h : p.Tells true (operationPieces separator))
    (least : Nat) : p.Tells true (expressionPieces separator least) :=
  h.imp fun _ _ hsaid => says_expression hsaid least

section Inner

variable {inner : Breadth → Reader Node}
  (hinner : ∀ breadth, (inner breadth).Tells true (operationPieces separator))

include hinner

theorem tells_call : (call inner).Tells true (operationPieces separator) := by
  refine tells_identifier.bind fun name s hname =>
    passes_list (tells_expressionPieces (hinner .withoutComma) Precedence.assignment).anywhere
      fun arguments t harguments => (tells_punct ')' ")" rfl rfl).map fun _ u hclose => ?_
  refine (hname.append (harguments.append hclose)).congr ((operationPieces_eq _).trans ?_) rfl
  show token name :: token "(" :: Sketch.commaSeparated
    ((arguments.map (Node.sketch separator)).map (·.expression Precedence.assignment)) ++
      [token ")"] = _
  rw [List.map_map]
  rfl

theorem tells_parenthesized :
    (parenthesized inner).Tells true (operationPieces separator) := by
  refine (copies_punct rfl).bind fun _ s hopen => (hinner .withComma).bind fun node t hnode =>
    (copies_punct rfl).map fun _ u hclose => ?_
  cases hopen.bared_eq
  cases hclose.bared_eq
  exact hnode.congr rfl (List.append_nil t)

theorem tells_primary : (primary inner).Tells true (operationPieces separator) := by
  refine (tells_floatLiteral.map fun text said h => ?_).orElse
    ((tells_intLiteral.map fun text said h => ?_).orElse
      (((tells_keyword "true").map fun _ said h => ?_).orElse
        (((tells_keyword "false").map fun _ said h => ?_).orElse
          ((tells_call hinner).orElse
            ((tells_identifier.map fun name said h => ?_).orElse
              (tells_parenthesized hinner))))))
  all_goals exact h.congr (operationPieces_eq _) rfl

theorem tells_trailer {base : Node} {said : List Char}
    (hbase : Says true (operationPieces separator base) said) :
    (trailer inner base).Passes fun found more =>
      found.elim (more = []) fun node =>
        Says true (operationPieces separator node) (said ++ more) := by
  have hfirst := says_expression hbase Precedence.trailing
  refine (tells_punct '[' "[" rfl rfl).branch (fun _ s hopen => ?_)
    ((tells_punct '.' "." rfl rfl).branch (fun _ s hpoint => ?_)
      (passes_update.branch (fun op s hop => passes_pure ?_) (passes_pure rfl)))
  · refine (hinner .withComma).bind fun position t hposition =>
      (tells_punct ']' "]" rfl rfl).map fun _ u hclose => ?_
    have hinside := (says_expression hposition Precedence.comma).anywhere
    have hall := (hfirst.append (hopen.append hinside)).append hclose
    exact hall.congr (operationPieces_eq _) (by simp)
  · refine tells_word.map fun field t hfield => ?_
    exact (hfirst.append (hpoint.append hfield.anywhere)).congr (operationPieces_eq _) rfl
  · have hupdate : Says false [token op] s := by
      rcases hop with ⟨rfl | rfl, rfl⟩ <;> exact Copied.toldAnywhere (copied_of_all rfl)
    exact (hfirst.append hupdate).congr (operationPieces_eq _) (by simp)

theorem tells_unary : (unary inner).Tells true (operationPieces separator) := by
  have htrailed : (trailed inner).Tells true (operationPieces separator) :=
    (tells_primary hinner).bind fun base said hbase =>
      Passes.extend (fun _ _ => tells_trailer hinner) hbase
  refine passes_fix (R := fun _ node => Says true (operationPieces separator node))
    (fun again hagain _ => ?_) ()
  refine (passes_operator.guarded _).branch (fun op s hop => ?_) htrailed
  refine (hagain ()).map fun operand t hoperand => ?_
  have hbehind := (says_expression hoperand Precedence.unary).anywhere
  exact (says_leading hop.1 hbehind).congr (operationPieces_eq _) (by rw [hop.2.2])

omit hinner in
theorem says_binary {op : String} {left right : Node} {said more : List Char}
    (hop : op.toList ∈ operators) (hleft : Says true (operationPieces separator left) said)
    (hright : Says true (operationPieces separator right) more) :
    Says true (operationPieces separator (.binary op left right))
      (said ++ (op.toList ++ more)) := by
  have hfirst := says_expression hleft (Precedence.ofNode (.binary op left right))
  have hlast := says_expression hright (Precedence.ofNode (.binary op left right) + 1)
  exact (hfirst.append (says_operator hop hlast)).congr (operationPieces_eq _) rfl

omit hinner in
theorem passes_operatorFrom (least : Nat) : (operatorFrom least).Passes fun found said =>
    found.1.toList ∈ operators ∧ said = found.1.toList := by
  refine passes_operator.bind fun op said hop => ?_
  split
  · split
    · exact passes_pure (by simpa using hop)
    · exact passes_refuse
  · exact passes_refuse

theorem tells_binary (least : Nat) :
    (binary inner least).Tells true (operationPieces separator) := by
  refine passes_fix (R := fun _ node => Says true (operationPieces separator node))
    (fun again hagain least => ?_) least
  refine (tells_unary hinner).bind fun first s hfirst =>
    Passes.extend (fun left t hleft => ?_) hfirst
  refine (passes_operatorFrom least).branch (fun found u hop => ?_) (passes_pure rfl)
  refine (hagain _).map fun right v hright => ?_
  exact (says_binary hop.1 hleft hright).congr rfl (by rw [hop.2])

theorem tells_conditional : (conditional inner).Tells true (operationPieces separator) := by
  refine (tells_binary hinner _).bind fun test s htest => ?_
  refine (tells_punct '?' "?" rfl rfl).branch (fun _ t hquestion => ?_)
    (passes_pure (by simpa using htest))
  refine (hinner .withComma).bind fun ifTrue u hifTrue =>
    (tells_punct ':' ":" rfl rfl).bind fun _ v hcolon =>
      (hinner .withoutComma).map fun ifFalse w hifFalse => ?_
  have hfirst := (says_expression htest Precedence.logicalOr).append
    (hquestion.append (says_expression hifTrue Precedence.comma).anywhere)
  have hlast := hcolon.append (says_expression hifFalse Precedence.conditional).anywhere
  exact (hfirst.append hlast).congr (operationPieces_eq _) (by simp)

omit hinner in
theorem passes_assignmentTo (target : Node) : (assignmentTo target).Passes fun op said =>
    op.toList ∈ operators ∧ said = op.toList := by
  unfold assignmentTo
  split
  · exact (passes_operator.guarded _).imp fun _ _ h => h.2
  · exact passes_refuse

theorem tells_assignment : (assignment inner).Tells true (operationPieces separator) := by
  refine (tells_conditional hinner).bind fun target s htarget => ?_
  refine (passes_assignmentTo target).branch (fun op t hop => ?_)
    (passes_pure (by simpa using htarget))
  refine (hinner .withoutComma).map fun value u hvalue => ?_
  have hbehind := says_operator hop.1 (says_expression hvalue Precedence.assignment)
  have hfirst := says_expression htarget (Precedence.assignment + 1)
  exact (hfirst.append hbehind).congr (operationPieces_eq _) (by rw [hop.2])

theorem tells_commaList : (commaList inner).Tells true (operationPieces separator) := by
  refine (tells_assignment hinner).bind fun first s hfirst =>
    Passes.extend (fun left t hleft => ?_) hfirst
  refine (tells_punct ',' "," rfl rfl).branch (fun _ u hcomma => ?_) (passes_pure rfl)
  refine (tells_assignment hinner).map fun right v hright => ?_
  have hbehind := hcomma.append (says_expression hright (Precedence.comma + 1)).anywhere
  exact ((says_expression hleft Precedence.comma).append hbehind).congr (operationPieces_eq _) rfl

end Inner

theorem tells_expression (separator : String) (breadth : Breadth) :
    (expression breadth).Tells true (operationPieces separator) := by
  refine passes_fix (R := fun _ node => Says true (operationPieces separator node))
    (fun inner hinner breadth => ?_) breadth
  cases breadth with
  | withComma => exact tells_commaList hinner
  | withoutComma => exact tells_assignment hinner

end Expression

/-! ### Declarations -/

namespace Declaration

open Expression

theorem tells_tokens {p : Reader String} (hp : p.Tells false fun w => [token w]) :
    (many p).Tells false Sketch.tokens :=
  hp.many.imp fun _ _ h => h.congr List.map_eq_flatMap rfl

theorem tells_optionalName :
    (optional identifier).Tells false fun name => [token (name.getD "")] := by
  refine tells_identifier.anywhere.optional.imp fun name said h => ?_
  cases name with
  | none =>
    cases h
    exact Copied.toldAnywhere (copied_of_all rfl)
  | some name => exact h

variable (separator : String)

theorem tells_typeName : typeName.Tells false fun node => (node.sketch separator).specifier :=
  tells_identifier.anywhere.map fun _ _ h => h.congr Sketch.specifier_name rfl

theorem tells_optionalSize : (optional arraySize).Tells false fun size =>
    Sketch.arraySize (size.map (Node.sketch separator)) := by
  have hsize : arraySize.Tells false fun node =>
      token "[" :: expressionPieces separator Precedence.comma node ++ [token "]"] :=
    (tells_punct '[' "[" rfl rfl).bind fun _ _ hopen =>
      (tells_conditional (tells_expression separator)).bind fun _ _ hnode =>
        (tells_punct ']' "]" rfl rfl).map fun _ _ hclose =>
          hopen.append ((says_expression hnode Precedence.comma).anywhere.append hclose)
  refine hsize.optional.imp fun size said h => h.congr ?_ rfl
  cases size <;> rfl

theorem tells_declarator :
    declarator.Tells false fun node => (node.sketch separator).declarator := by
  refine tells_identifier.anywhere.bind fun name s hname =>
    (tells_optionalSize separator).bind fun size t hsize => ?_
  refine tells_equals.branch (fun _ u hequals => ?_) (passes_pure ?_)
  · refine (tells_expression separator .withoutComma).map fun initializer v hinitializer => ?_
    have hvalue := (says_expression hinitializer Precedence.assignment).anywhere
    exact (hname.append (hsize.append (hequals.append hvalue))).congr Sketch.declarator_eq rfl
  · exact (hname.append (hsize.append .nil)).congr Sketch.declarator_eq rfl

theorem tells_declarators (type : Node) :
    (declarators type).Tells false (namePieces separator) := by
  unfold declarators
  split
  · exact (tells_declarator separator).separated
  · exact (tells_declarator separator).separated1

section Members

variable {separator} {member : Reader Node}
  (hmember : member.Tells false fun node => (node.sketch separator).declaration)

include hmember

theorem tells_typeSpecifier :
    (typeSpecifier member).Tells false fun node => (node.sketch separator).specifier := by
  refine Passes.orElse ?_ (tells_typeName separator)
  refine (tells_keyword "struct").anywhere.bind fun _ s hstruct =>
    tells_optionalName.bind fun name t hname =>
      (tells_punct '\x7b' "\x7b" rfl rfl).bind fun _ u hopen =>
        hmember.many1.bind fun members v hmembers =>
          (tells_punct '\x7d' "\x7d" rfl rfl).map fun _ w hclose => ?_
  exact (hstruct.append (hname.append (hopen.append (hmembers.append hclose)))).congr
    Sketch.specifier_struct rfl

/-- The semicolon is printed with the declaration, but read after it. -/
theorem passes_body : (body member).Passes fun node said => node.tag = .declaration ∧
    Says false (node.sketch separator).declaration (said ++ [';']) := by
  refine (tells_tokens tells_declarationQualifier).bind fun qualifiers s hqualifiers =>
    (tells_typeSpecifier hmember).bind fun type t htype =>
      (tells_declarators separator type).map fun names u hnames => ⟨rfl, ?_⟩
  have hend : Says false [token ";"] [';'] := Copied.toldAnywhere (copied_of_all rfl)
  exact ((hqualifiers.append (htype.append hnames)).append hend).congr Sketch.declaration_eq rfl

end Members

theorem tells_declaration :
    declaration.Tells false fun node => (node.sketch separator).declaration := by
  refine passes_fix (R := fun _ (node : Node) => Says false (node.sketch separator).declaration)
    (fun again hagain _ => ?_) ()
  refine (passes_body (hagain ())).bind fun node s hnode =>
    (copies_punct rfl).map fun _ t hend => ?_
  exact hnode.2.congr rfl (by rw [← hend.bared_eq]; rfl)

theorem tells_precisionStatement :
    precisionStatement.Tells false fun node => (node.sketch separator).statement := by
  refine (tells_keyword "precision").anywhere.bind fun _ s hword =>
    (tells_wordIn Word.precisionQualifiers).anywhere.bind fun qualifier t hqualifier =>
      (tells_typeName separator).bind fun type u htype =>
        (tells_punct ';' ";" rfl rfl).map fun _ v hend => ?_
  have hall := hword.append (hqualifier.append (htype.append hend))
  exact hall.congr (Sketch.statement_eq_statementOf _) rfl

theorem tells_parameter :
    parameter.Tells false fun node => (node.sketch separator).parameter := by
  refine (tells_tokens (tells_wordIn _).anywhere).bind fun qualifiers s hqualifiers =>
    (tells_typeSpecifier (tells_declaration separator)).bind fun type t htype =>
      tells_optionalName.bind fun name u hname =>
        (tells_optionalSize separator).map fun size v hsize => ?_
  exact (hqualifiers.append (htype.append (hname.append hsize))).congr Sketch.parameter_eq rfl

theorem tells_parameterList : parameterList.Tells false fun parameters =>
    token "(" :: (parameterPieces separator parameters ++ [token ")"]) :=
  passes_list (tells_parameter separator) fun _ _ hparameters =>
    (tells_punct ')' ")" rfl rfl).map fun _ _ hclose => hparameters.append hclose

end Declaration

/-! ### Statements -/

namespace Statement

open Expression

variable (separator : String)

theorem tells_condition : condition.Tells false fun node =>
    Sketch.condition (some (node.sketch separator)) :=
  (tells_parenthesized (tells_expression separator)).imp fun _ _ h =>
    (says_parentheses (says_expression h Precedence.comma).anywhere).anywhere

theorem tells_optionalExpression : (optional (expression .withComma)).Tells false fun found =>
    Sketch.operand (found.map (Node.sketch separator)) Precedence.comma := by
  have hexpression :=
    tells_expressionPieces (tells_expression separator .withComma) Precedence.comma
  refine hexpression.anywhere.optional.imp fun found said h => h.congr ?_ rfl
  cases found <;> rfl

/-- The first part of a loop header is printed with its semicolon, but read without it. -/
theorem passes_loopStart :
    (optional (Declaration.body Declaration.declaration <|> expression .withComma)).Passes
      fun found said => Says false (Sketch.loopStart (found.map (Node.sketch separator)))
        (said ++ [';']) := by
  have hend : Says false [token ";"] [';'] := Copied.toldAnywhere (copied_of_all rfl)
  have hstart : (Declaration.body Declaration.declaration <|> expression .withComma).Passes
      fun node said => Says false (Sketch.loopStart (some (node.sketch separator)))
        (said ++ [';']) := by
    refine ((Declaration.passes_body (Declaration.tells_declaration separator)).imp
      fun node said h => ?_).orElse (((tells_expression separator .withComma).and_yields
        (yields_expression .withComma)).imp fun node said h => ?_)
    · rw [Sketch.loopStart, Sketch.tag_eq, if_pos h.1]
      exact h.2
    · have htag : node.tag ≠ .declaration := by
        intro htag
        have hexpression := h.1.tag
        rw [htag] at hexpression
        cases hexpression
      rw [Sketch.loopStart, Sketch.tag_eq, if_neg htag]
      exact (says_expression h.2 Precedence.comma).anywhere.append hend
  refine hstart.branch (fun node said h => passes_pure ?_) (passes_pure hend)
  rw [List.append_nil]
  exact h

section Inner

variable {separator} {inner : Reader Node}
  (hinner : inner.Tells false fun node => (node.sketch separator).statement)

include hinner

theorem tells_block : (block inner).Tells false fun node => (node.sketch separator).statement :=
  (tells_punct '\x7b' "\x7b" rfl rfl).bind fun _ _ hopen =>
    (hinner.manyUntil (tells_punct '\x7d' "\x7d" rfl rfl)).map fun _ _ hstatements =>
      (hopen.append hstatements).congr Sketch.scope_eq rfl

theorem tells_ifStatement :
    (ifStatement inner).Tells false fun node => (node.sketch separator).statement := by
  refine (tells_keyword "if").anywhere.bind fun _ s hword =>
    (tells_condition separator).bind fun test t htest =>
      hinner.bind fun thenBranch u hthen => ?_
  have hfront := (hword.append htest).append hthen
  refine (tells_keyword "else").anywhere.branch (fun _ v helse => ?_) (passes_pure ?_)
  · refine hinner.map fun elseBranch w hbranch => ?_
    exact (hfront.append (helse.append hbranch)).congr (Sketch.statement_eq_statementOf _) (by simp)
  · exact (hfront.append .nil).congr (Sketch.statement_eq_statementOf _) (by simp)

theorem tells_forLoop :
    (forLoop inner).Tells false fun node => (node.sketch separator).statement := by
  refine (tells_keyword "for").anywhere.bind fun _ s hword =>
    (tells_punct '(' "(" rfl rfl).bind fun _ t hopen =>
      (passes_loopStart separator).bind fun init u hinit =>
        (copies_punct rfl).bind fun _ v hfirst =>
          (tells_optionalExpression separator).bind fun test w htest =>
            (tells_punct ';' ";" rfl rfl).bind fun _ x hsecond => ?_
  refine (tells_optionalExpression separator).bind fun step y hstep =>
    (tells_punct ')' ")" rfl rfl).bind fun _ z hclose => hinner.map fun body last hbody => ?_
  have hheader := hinit.append (htest.append (hsecond.append (hstep.append (hclose.append hbody))))
  obtain rfl : [';'] = v := hfirst.bared_eq
  exact (hword.append (hopen.append hheader)).congr Sketch.for_eq (by simp)

theorem tells_whileLoop :
    (whileLoop inner).Tells false fun node => (node.sketch separator).statement := by
  refine (tells_keyword "while").anywhere.bind fun _ s hword =>
    (tells_condition separator).bind fun test t htest => hinner.map fun body u hbody => ?_
  exact ((hword.append htest).append hbody).congr (Sketch.statement_eq_statementOf _) (by simp)

theorem tells_doWhileLoop :
    (doWhileLoop inner).Tells false fun node => (node.sketch separator).statement := by
  refine (tells_keyword "do").anywhere.bind fun _ s hdo => hinner.bind fun body t hbody =>
    (tells_keyword "while").anywhere.bind fun _ u hwhile =>
      (tells_condition separator).bind fun test v htest =>
        (tells_punct ';' ";" rfl rfl).map fun _ w hend => ?_
  have hall := ((hdo.append hbody).append (hwhile.append htest)).append hend
  exact hall.congr (Sketch.statement_eq_statementOf _) (by simp)

end Inner

theorem tells_returnStatement :
    returnStatement.Tells false fun node => (node.sketch separator).statement :=
  (tells_keyword "return").anywhere.bind fun _ _ hword =>
    (tells_optionalExpression separator).bind fun _ _ hvalue =>
      (tells_punct ';' ";" rfl rfl).map fun _ _ hend =>
        (hword.append (hvalue.append hend)).congr Sketch.return_eq rfl

theorem tells_jump : jump.Tells false fun node => (node.sketch separator).statement :=
  (tells_wordIn _).anywhere.bind fun _ _ hword => (tells_punct ';' ";" rfl rfl).map fun _ _ hend =>
    (hword.append hend).congr (Sketch.statement_eq_statementOf _) rfl

theorem tells_directive : directive.Tells false fun node => (node.sketch separator).statement := by
  exact Token.tells_directive.map fun text said h => h.congr (Sketch.statement_eq_statementOf _) rfl

theorem tells_emptyStatement :
    emptyStatement.Tells false fun node => (node.sketch separator).statement :=
  (tells_punct ';' ";" rfl rfl).map fun _ _ h =>
    h.congr (Sketch.statement_eq_statementOf _) rfl

theorem tells_expressionStatement :
    expressionStatement.Tells false fun node => (node.sketch separator).statement := by
  refine (tells_expression separator .withComma).bind fun value s hvalue =>
    (tells_punct ';' ";" rfl rfl).map fun _ t hend => ?_
  have hall := (says_expression hvalue Precedence.comma).anywhere.append hend
  exact hall.congr (Sketch.statement_eq_statementOf _) rfl

theorem tells_declaration :
    Declaration.declaration.Tells false fun node => (node.sketch separator).statement := by
  refine ((Declaration.tells_declaration separator).and_yields
    Declaration.yields_declaration).imp fun node said h => h.2.congr ?_ rfl
  exact Sketch.statement_eq_declaration (beq_iff_eq.mp h.1.tag)

theorem tells_statement : statement.Tells false fun node => (node.sketch separator).statement := by
  refine passes_fix (R := fun _ (node : Node) => Says false (node.sketch separator).statement)
    (fun again hagain _ => ?_) ()
  have hinner := hagain ()
  have hsimple := (tells_returnStatement separator).orElse ((tells_jump separator).orElse
    ((tells_directive separator).orElse ((tells_emptyStatement separator).orElse
      ((tells_declaration separator).orElse (tells_expressionStatement separator)))))
  exact (tells_block hinner).orElse ((tells_ifStatement hinner).orElse
    ((tells_forLoop hinner).orElse ((tells_whileLoop hinner).orElse
      ((tells_doWhileLoop hinner).orElse hsimple))))

theorem tells_function : function.Tells false fun node => (node.sketch separator).statement := by
  refine (Declaration.tells_tokens (tells_wordIn _).anywhere).bind fun qualifiers s hqualifiers =>
    (Declaration.tells_typeSpecifier (Declaration.tells_declaration separator)).bind
      fun type t htype => tells_identifier.anywhere.bind fun name u hname =>
        (Declaration.tells_parameterList separator).bind fun parameters v hparameters => ?_
  have hheader : Says false
      (headerPieces separator qualifiers (type.sketch separator).specifier name parameters)
      (s ++ (t ++ (u ++ v))) := hqualifiers.append (htype.append (hname.append hparameters))
  refine (tells_punct ';' ";" rfl rfl).branch (fun _ w hend => passes_pure ?_)
    ((tells_block (tells_statement separator)).map fun body w hbody => ?_)
  · refine (hheader.append hend).congr ((Sketch.statement_eq_statementOf _).trans ?_) (by simp)
    exact congrArg (· ++ [token ";"]) Sketch.header_eq
  · refine (hheader.append hbody).congr ((Sketch.statement_eq_statementOf _).trans ?_) (by simp)
    exact congrArg (· ++ (body.sketch separator).statement) Sketch.header_eq

theorem tells_topLevel : topLevel.Tells false fun node => (node.sketch separator).statement :=
  (tells_directive separator).orElse ((Declaration.tells_precisionStatement separator).orElse
    ((tells_function separator).orElse (tells_declaration separator)))

end Statement

/-! ### Whole texts -/

section Whole

variable {separator : String} (hseparator : ∀ c ∈ separator.toList, isSpace c = true)

include hseparator

theorem says_separatedBy {node : Node} {said : List Char}
    (h : Says false (node.sketch separator).statement said) :
    Says false (Sketch.separatedBy separator (node.sketch separator)) said := by
  unfold Sketch.separatedBy
  split
  · exact h
  · exact (h.append (.verbatim hseparator .nil)).congr rfl (by simp)

/-- What is left of the text is said by the declarations that are read from it. -/
theorem topLevels_told {source : List Char} {isFragment : Bool} {bound : Nat} {rest : List Char}
    {declarations : List Node}
    (h : Source.topLevels source isFragment bound rest = .ok declarations) (hready : Ready rest) :
    Says false (declarations.flatMap fun node =>
      Sketch.separatedBy separator (node.sketch separator)) (stripped rest) := by
  fun_induction Source.topLevels source isFragment bound rest generalizing declarations with
  | case1 =>
    cases h
    exact Says.nil.congr rfl scan_nil
  | case2 => cases h
  | case3 => cases h
  | case4 => cases h
  | case5 bound rest _ node next hread _ ih =>
    cases hothers : Source.topLevels source isFragment bound next with
    | error error =>
      rw [hothers] at h
      cases h
    | ok others =>
      rw [hothers] at h
      cases h
      obtain ⟨said, hsaid, htext, hnext⟩ :=
        Statement.tells_topLevel separator rest node next hread hready
      rw [htext]
      exact (says_separatedBy hseparator hsaid).append (ih hothers hnext)

theorem shader_told {source : List Char} {isFragment : Bool} {root : Node}
    (h : Source.shader source isFragment = .ok root) (hvoid : hasVoidList source = false) :
    Says false (root.pieces separator) (stripped source) := by
  rw [Source.shader] at h
  cases htop : Source.topLevels source isFragment source.length (skipBlank source) with
  | error error =>
    rw [htop] at h
    cases h
  | ok declarations =>
    rw [htop] at h
    cases h
    have htold := topLevels_told hseparator htop (ready_skipBlank hvoid)
    refine htold.congr ?_ (stripped_skipBlank source).symm
    rw [Node.pieces, Node.sketch_eq]
    show (((declarations.map (Node.sketch separator)).map
      (Sketch.separatedBy separator)).flatten : List Piece) = _
    rw [List.map_map, List.flatMap_def]
    rfl

omit hseparator in
/-- A text that holds nothing but one construct. -/
theorem complete_told {source : List Char} {reader : Reader Node} {what : String} {root : Node}
    {pieces : Node → List Piece} (hreader : reader.Tells false pieces)
    (h : Source.complete source reader what = .ok root) (hvoid : hasVoidList source = false) :
    Says false (pieces root) (stripped source) := by
  obtain ⟨said, hsaid, htext, -⟩ :=
    hreader _ _ _ (Source.complete_eq_ok h) (ready_skipBlank hvoid)
  have hend : stripped [] = [] := scan_nil
  refine hsaid.congr rfl ?_
  rw [← stripped_skipBlank, htext, hend, List.append_nil]

/-- The printed pieces of a tree say what the text says that it was read from. -/
theorem parse_told {source : String} {rule : StartRule} {root : Node}
    (h : parse source rule = .ok root) (hvoid : hasVoidList source.toList = false) :
    Says false (root.pieces separator) (stripped source.toList) := by
  have htag := (parse_formed h).tag
  cases rule with
  | shader | vertexShader | fragmentShader => exact shader_told hseparator h hvoid
  | expression =>
    have hexpression : root.tag.isExpression = true := htag
    have htells := Expression.tells_expressionPieces
      (Expression.tells_expression separator .withComma) Precedence.comma
    refine (complete_told htells.anywhere h hvoid).congr ?_ rfl
    rw [Node.pieces, if_pos hexpression]
    rfl
  | statement =>
    have hplain : ¬root.tag.isExpression = true := by
      rw [Tag.isExpression_eq_false_of_isStatement htag]
      exact Bool.false_ne_true
    refine (complete_told (Statement.tells_statement separator) h hvoid).congr ?_ rfl
    rw [Node.pieces, if_neg hplain]

end Whole

/-- A text that is read under a start rule and printed again says the same as before, apart from
white space, comments and parentheses, if no list in it consists of the word `void`. -/
theorem parse_render_stripped {source separator : String} {rule : StartRule} {root : Node}
    (hread : parse source rule = .ok root) (hvoid : hasVoidList source.toList = false)
    (hseparator : ∀ c ∈ separator.toList, isSpace c = true) :
    stripped (root.render separator).toList = stripped source.toList := by
  rw [Node.render, String.toList_ofList]
  exact stripped_write (parse_told hseparator hread hvoid) none

/-- A shader with a directive, comments of both kinds, a division next to one, and parentheses that
are needed or not. -/
def commentedDivision : String :=
  "#define N 2 // two \nvoid main() \x7b x = ((a)/ /* by */(b+N)); // end\nf((x)); \x7d"

theorem parse_render_stripped_division :
    hasVoidList commentedDivision.toList = false ∧
      ∃ root, parse commentedDivision .shader = .ok root ∧
        root.render "\n" = "#define N 2 // two\nvoid main()\x7bx=a/(b+N);f(x);\x7d\n" ∧
        stripped (root.render "\n").toList = stripped commentedDivision.toList := by
  have hvoid : hasVoidList commentedDivision.toList = false := by decide +kernel
  have hok : (parse commentedDivision .shader).toOption.any (fun root =>
      root.render "\n" == "#define N 2 // two\nvoid main()\x7bx=a/(b+N);f(x);\x7d\n") = true := by
    decide +kernel
  obtain ⟨root, hread, hroot⟩ := exists_ok_of_any hok
  have hseparator : ∀ c ∈ "\n".toList, isSpace c = true := forall_mem_of_all (by decide)
  exact ⟨hvoid, root, hread, beq_iff_eq.mp hroot, parse_render_stripped hread hvoid hseparator⟩

end GlslShrink
