import GlslShrink.Proofs.Printing.Printable

/-!
The rules of the grammar for trees that can be printed. A tree all of whose nodes pass the checks
is an expression, a declaration, a statement or a top-level declaration in the sense of the rules
below; an induction over a rule then has one case for every form of the grammar.
-/

set_option autoImplicit false

namespace GlslShrink

/-! ### Layouts -/

namespace Slot

variable {α : Type}

theorem fitAll_cons {slots : List (Slot α)} {kind : SlotKind} {kinds : List SlotKind} :
    fitAll slots (kind :: kinds) = true ↔
      ∃ slot others, slots = slot :: others ∧ slot.fits kind = true ∧ fitAll others kinds = true := by
  cases slots with
  | nil => simp [fitAll]
  | cons slot others =>
    rw [fitAll, Bool.and_eq_true]
    constructor
    · intro h
      exact ⟨slot, others, rfl, h⟩
    · rintro ⟨_, _, heq, h⟩
      cases heq
      exact h

theorem fitAll_nil {slots : List (Slot α)} : fitAll slots [] = true ↔ slots = [] := by
  cases slots <;> simp [fitAll]

theorem fits_required {slot : Slot α} : slot.fits .required = true ↔ ∃ child, slot = .one child := by
  cases slot <;> simp [fits]

theorem fits_optional {slot : Slot α} :
    slot.fits .optional = true ↔ ∃ child, slot = .ofOption child := by
  cases slot with
  | absent => exact iff_of_true rfl ⟨none, rfl⟩
  | one child => exact iff_of_true rfl ⟨some child, rfl⟩
  | many children =>
    refine iff_of_false (by simp [fits]) ?_
    rintro ⟨child, h⟩
    cases child <;> simp [ofOption] at h

theorem fits_ofOption (child : Option α) : (ofOption child).fits .optional = true :=
  fits_optional.mpr ⟨child, rfl⟩

theorem fits_list {slot : Slot α} : slot.fits .list = true ↔ ∃ children, slot = .many children := by
  cases slot <;> simp [fits]

theorem childAt_ofOption {slots : List (Slot α)} {i : Nat} {child : Option α}
    (h : slots[i]? = some (ofOption child)) : childAt slots i = child := by
  rw [childAt, h]
  cases child <;> rfl

theorem toList_one (child : α) : (one child).toList = [child] :=
  rfl

theorem toList_many (children : List α) : (many children).toList = children :=
  rfl

theorem toList_ofOption (child : Option α) : (ofOption child).toList = child.toList := by
  cases child <;> rfl

theorem map_ofOption {β : Type} (f : α → β) (child : Option α) :
    (ofOption child).map f = ofOption (child.map f) := by
  cases child <;> rfl

end Slot

/-! ### The rules of the grammar -/

namespace Printable

/-- The expressions that can be printed. -/
inductive Expression : Node → Prop where
  | identifier {mark : Mark} {name : String} (hname : Word.isName name = true) :
    Expression ⟨mark, .identifier, name, [], []⟩
  | intLiteral {mark : Mark} {text : String} (htext : Token.intLiteral.accepts text = true) :
    Expression ⟨mark, .intLiteral, text, [], []⟩
  | floatLiteral {mark : Mark} {text : String} (htext : Token.floatLiteral.accepts text = true) :
    Expression ⟨mark, .floatLiteral, text, [], []⟩
  | boolLiteral {mark : Mark} {text : String} (htext : text = "true" ∨ text = "false") :
    Expression ⟨mark, .boolLiteral, text, [], []⟩
  | call {mark : Mark} {name : String} {arguments : List Node} (hname : Word.isName name = true)
      (harguments : ∀ argument ∈ arguments, Expression argument)
      (hvoid : Node.isVoidArgument arguments = false) :
    Expression ⟨mark, .call, name, [], [.many arguments]⟩
  | fieldSelection {mark : Mark} {field : String} {base : Node}
      (hfield : Word.isWord field = true) (hbase : Expression base)
      (hint : base.tag ≠ .intLiteral) :
    Expression ⟨mark, .fieldSelection, field, [], [.one base]⟩
  | index {mark : Mark} {base position : Node} (hbase : Expression base)
      (hposition : Expression position) :
    Expression ⟨mark, .index, "", [], [.one base, .one position]⟩
  | postfixUpdate {mark : Mark} {operator : String} {base : Node}
      (hoperator : operator = "++" ∨ operator = "--") (hbase : Expression base) :
    Expression ⟨mark, .postfixUpdate, operator, [], [.one base]⟩
  | unary {mark : Mark} {operator : String} {operand : Node}
      (hoperator : Precedence.isLeading operator = true) (hoperand : Expression operand) :
    Expression ⟨mark, .unary, operator, [], [.one operand]⟩
  | binary {mark : Mark} {operator : String} {level : Nat} {left right : Node}
      (hoperator : Precedence.ofBinary? operator = some level) (hleft : Expression left)
      (hright : Expression right) :
    Expression ⟨mark, .binary, operator, [], [.one left, .one right]⟩
  | ternary {mark : Mark} {test ifTrue ifFalse : Node} (htest : Expression test)
      (hifTrue : Expression ifTrue) (hifFalse : Expression ifFalse) :
    Expression ⟨mark, .ternary, "", [], [.one test, .one ifTrue, .one ifFalse]⟩
  | assignment {mark : Mark} {operator : String} {target value : Node}
      (hoperator : Precedence.isAssignment operator = true) (htarget : Expression target)
      (hlevel : Precedence.unary ≤ Precedence.ofNode target) (hvalue : Expression value) :
    Expression ⟨mark, .assignment, operator, [], [.one target, .one value]⟩

/-- The array sizes that can be printed: nothing, or an expression as tight as a conditional. -/
def ArraySize (size : Option Node) : Prop :=
  ∀ node ∈ size, Expression node ∧ Precedence.conditional ≤ Precedence.ofNode node

inductive Declarator : Node → Prop where
  | intro {mark : Mark} {name : String} {size initializer : Option Node}
      (hname : Word.isName name = true) (hsize : ArraySize size)
      (hinitializer : ∀ node ∈ initializer, Expression node) :
    Declarator ⟨mark, .declarator, name, [], [.ofOption size, .ofOption initializer]⟩

/-- The declarations that can be printed, by the form of their type. -/
inductive Declaration : Node → Prop where
  | plain {mark typeMark : Mark} {qualifiers : List String} {name : String}
      {declarators : List Node}
      (hqualifiers : ∀ q ∈ qualifiers, Declaration.declarationQualifier.accepts q = true)
      (hname : Word.isName name = true) (hdeclarators : ∀ d ∈ declarators, Declarator d)
      (hne : declarators ≠ []) :
    Declaration ⟨mark, .declaration, "", qualifiers,
      [.one ⟨typeMark, .typeName, name, [], []⟩, .many declarators]⟩
  | struct {mark typeMark : Mark} {qualifiers : List String} {name : String}
      {members declarators : List Node}
      (hqualifiers : ∀ q ∈ qualifiers, Declaration.declarationQualifier.accepts q = true)
      (hname : name = "" ∨ Word.isName name = true)
      (hmembers : ∀ member ∈ members, Declaration member) (hne : members ≠ [])
      (hdeclarators : ∀ d ∈ declarators, Declarator d) :
    Declaration ⟨mark, .declaration, "", qualifiers,
      [.one ⟨typeMark, .structDefinition, name, [], [.many members]⟩, .many declarators]⟩

/-- The types that can be printed. -/
inductive TypeSpecifier : Node → Prop where
  | name {mark : Mark} {name : String} (hname : Word.isName name = true) :
    TypeSpecifier ⟨mark, .typeName, name, [], []⟩
  | struct {mark : Mark} {name : String} {members : List Node}
      (hname : name = "" ∨ Word.isName name = true)
      (hmembers : ∀ member ∈ members, Declaration member) (hne : members ≠ []) :
    TypeSpecifier ⟨mark, .structDefinition, name, [], [.many members]⟩

inductive Parameter : Node → Prop where
  | intro {mark : Mark} {qualifiers : List String} {type : Node} {name : String}
      {size : Option Node}
      (hqualifiers : ∀ q ∈ qualifiers, Declaration.parameterQualifier.accepts q = true)
      (htype : TypeSpecifier type) (hname : name = "" ∨ Word.isName name = true)
      (hsize : ArraySize size) :
    Parameter ⟨mark, .parameter, name, qualifiers, [.one type, .ofOption size]⟩

/-- The statements that can be printed. -/
inductive Statement : Node → Prop where
  | directive {mark : Mark} {text : String} (htext : Text.isDirective text = true) :
    Statement ⟨mark, .directive, text, [], []⟩
  | declaration {node : Node} (hnode : Declaration node) : Statement node
  | scope {mark : Mark} {statements : List Node}
      (hstatements : ∀ statement ∈ statements, Statement statement) :
    Statement ⟨mark, .scope, "", [], [.many statements]⟩
  | expressionStatement {mark : Mark} {value : Option Node}
      (hvalue : ∀ node ∈ value, Expression node) :
    Statement ⟨mark, .expressionStatement, "", [], [.ofOption value]⟩
  | ifThen {mark : Mark} {test thenBranch : Node} (htest : Expression test)
      (hthen : Statement thenBranch) :
    Statement ⟨mark, .ifStatement, "", [], [.one test, .one thenBranch, .absent]⟩
  | ifElse {mark : Mark} {test thenBranch elseBranch : Node} (htest : Expression test)
      (hthen : Statement thenBranch) (helse : Statement elseBranch)
      (hopen : Braces.endsWithOpenIf thenBranch = false) :
    Statement ⟨mark, .ifStatement, "", [], [.one test, .one thenBranch, .one elseBranch]⟩
  | forLoop {mark : Mark} {init test step : Option Node} {body : Node}
      (hinit : ∀ node ∈ init, Declaration node ∨ Expression node)
      (htest : ∀ node ∈ test, Expression node) (hstep : ∀ node ∈ step, Expression node)
      (hbody : Statement body) :
    Statement ⟨mark, .forLoop, "", [],
      [.ofOption init, .ofOption test, .ofOption step, .one body]⟩
  | whileLoop {mark : Mark} {test body : Node} (htest : Expression test) (hbody : Statement body) :
    Statement ⟨mark, .whileLoop, "", [], [.one test, .one body]⟩
  | doWhileLoop {mark : Mark} {body test : Node} (hbody : Statement body)
      (htest : Expression test) :
    Statement ⟨mark, .doWhileLoop, "", [], [.one body, .one test]⟩
  | returnStatement {mark : Mark} {value : Option Node}
      (hvalue : ∀ node ∈ value, Expression node) :
    Statement ⟨mark, .returnStatement, "", [], [.ofOption value]⟩
  | jump {mark : Mark} {keyword : String}
      (hkeyword : (Token.wordIn ["break", "continue", "discard"]).accepts keyword = true) :
    Statement ⟨mark, .jump, keyword, [], []⟩

/-- What can be printed at the top of a shader. -/
inductive TopLevel : Node → Prop where
  | directive {mark : Mark} {text : String} (htext : Text.isDirective text = true) :
    TopLevel ⟨mark, .directive, text, [], []⟩
  | precision {mark typeMark : Mark} {qualifier name : String}
      (hqualifier : Declaration.precisionQualifier.accepts qualifier = true)
      (hname : Word.isName name = true) :
    TopLevel ⟨mark, .precision, "", [qualifier], [.one ⟨typeMark, .typeName, name, [], []⟩]⟩
  | declaration {node : Node} (hnode : Declaration node) : TopLevel node
  | functionPrototype {mark : Mark} {qualifiers : List String} {type : Node} {name : String}
      {parameters : List Node}
      (hqualifiers : ∀ q ∈ qualifiers, Declaration.precisionQualifier.accepts q = true)
      (htype : TypeSpecifier type) (hname : Word.isName name = true)
      (hparameters : ∀ p ∈ parameters, Parameter p)
      (hvoid : Node.isVoidOnly parameters = false) :
    TopLevel ⟨mark, .functionPrototype, name, qualifiers, [.one type, .many parameters]⟩
  | functionDefinition {mark bodyMark : Mark} {qualifiers : List String} {type : Node}
      {name : String} {parameters statements : List Node}
      (hqualifiers : ∀ q ∈ qualifiers, Declaration.precisionQualifier.accepts q = true)
      (htype : TypeSpecifier type) (hname : Word.isName name = true)
      (hparameters : ∀ p ∈ parameters, Parameter p)
      (hvoid : Node.isVoidOnly parameters = false)
      (hstatements : ∀ statement ∈ statements, Statement statement) :
    TopLevel ⟨mark, .functionDefinition, name, qualifiers, [.one type, .many parameters,
      .one ⟨bodyMark, .scope, "", [], [.many statements]⟩]⟩

/-! ### From checks to rules -/

section Rules

open Node

variable {mark : Mark} {tag : Tag} {value : String} {qualifiers : List String}
  {slots : List (Slot Node)}

/-- The parts of the check against the grammar. -/
theorem fitsGrammar_iff :
    (⟨mark, tag, value, qualifiers, slots⟩ : Node).fitsGrammar = true ↔
      Slot.fitAll slots tag.layout = true ∧ fitPlaces slots tag.places = true ∧
        tag.allowsValue value = true ∧ tag.allowsQualifiers qualifiers = true ∧
        (⟨mark, tag, value, qualifiers, slots⟩ : Node).isComplete = true :=
  Node.fitsGrammar_iff

theorem fitPlaces_one {child : Node} {allowed : Tag → Bool} {others : List (Tag → Bool)} :
    fitPlaces (.one child :: slots) (allowed :: others) = true ↔
      allowed child.tag = true ∧ fitPlaces slots others = true := by
  simp [fitPlaces, Slot.toList]

theorem fitPlaces_many {children : List Node} {allowed : Tag → Bool}
    {others : List (Tag → Bool)} :
    fitPlaces (.many children :: slots) (allowed :: others) = true ↔
      (∀ child ∈ children, allowed child.tag = true) ∧ fitPlaces slots others = true := by
  simp [fitPlaces, Slot.toList]

theorem fitPlaces_ofOption {child : Option Node} {allowed : Tag → Bool}
    {others : List (Tag → Bool)} :
    fitPlaces (.ofOption child :: slots) (allowed :: others) = true ↔
      (∀ node ∈ child, allowed node.tag = true) ∧ fitPlaces slots others = true := by
  simp [fitPlaces, Slot.toList_ofOption]

theorem fitPlaces_nil {places : List (Tag → Bool)} : fitPlaces [] places = true := by
  cases places <;> rfl

theorem mem_children_mk {child : Node} :
    child ∈ (⟨mark, tag, value, qualifiers, slots⟩ : Node).children ↔
      ∃ slot ∈ slots, child ∈ slot.toList :=
  List.mem_flatMap

theorem qualifiers_of_isExpression {tag : Tag} {qualifiers : List String}
    (htag : tag.isExpression = true) (h : tag.allowsQualifiers qualifiers = true) :
    qualifiers = [] := by
  cases tag <;> simp only [Tag.isExpression, Bool.false_eq_true] at htag
  all_goals exact List.isEmpty_iff.mp h

/-- Of the statements only declarations have qualifiers. -/
theorem qualifiers_of_isStatement {tag : Tag} {qualifiers : List String}
    (htag : tag.isStatement = true) (hne : tag ≠ .declaration)
    (h : tag.allowsQualifiers qualifiers = true) : qualifiers = [] := by
  cases tag <;> simp only [Tag.isStatement, Bool.false_eq_true] at htag
  case declaration => exact absurd rfl hne
  all_goals exact List.isEmpty_iff.mp h

theorem expression_of_every (node : Node) :
    node.Every Fits → node.tag.isExpression = true → Expression node := by
  induction node using Node.induct with
  | h node ih =>
    intro hevery htag
    obtain ⟨hfits, hunambiguous, -⟩ := hevery.root
    have hchild : ∀ child ∈ node.children, child.tag.isExpression = true → Expression child :=
      fun child hmem => ih child hmem (hevery.child hmem)
    clear ih hevery
    obtain ⟨mark, tag, value, qualifiers, slots⟩ := node
    obtain ⟨hlayout, hplaces, hvalue, hqualifiers, hcomplete⟩ := fitsGrammar_iff.mp hfits
    simp only [mem_children_mk] at hchild
    obtain rfl := qualifiers_of_isExpression htag hqualifiers
    cases tag <;> simp only [Tag.isExpression, Bool.false_eq_true] at htag
    all_goals
      simp only [Tag.layout, Slot.fitAll_cons, Slot.fitAll_nil, Slot.fits_required,
        Slot.fits_list] at hlayout
    case assignment =>
      obtain ⟨_, _, rfl, ⟨target, rfl⟩, _, _, rfl, ⟨assigned, rfl⟩, rfl⟩ := hlayout
      simp only [Tag.places, fitPlaces_one, fitPlaces_nil, and_true] at hplaces
      have hlevel : Precedence.unary ≤ Precedence.ofNode target := by
        simpa [isComplete, child?, Slot.childAt] using hcomplete
      exact .assignment hvalue (hchild target (by simp [Slot.toList]) hplaces.1) hlevel
        (hchild assigned (by simp [Slot.toList]) hplaces.2)
    case binary =>
      obtain ⟨_, _, rfl, ⟨left, rfl⟩, _, _, rfl, ⟨right, rfl⟩, rfl⟩ := hlayout
      simp only [Tag.places, fitPlaces_one, fitPlaces_nil, and_true] at hplaces
      obtain ⟨level, hlevel⟩ := Option.isSome_iff_exists.mp hvalue
      exact .binary hlevel (hchild left (by simp [Slot.toList]) hplaces.1)
        (hchild right (by simp [Slot.toList]) hplaces.2)
    case unary =>
      obtain ⟨_, _, rfl, ⟨operand, rfl⟩, rfl⟩ := hlayout
      simp only [Tag.places, fitPlaces_one, fitPlaces_nil, and_true] at hplaces
      exact .unary hvalue (hchild operand (by simp [Slot.toList]) hplaces)
    case postfixUpdate =>
      obtain ⟨_, _, rfl, ⟨base, rfl⟩, rfl⟩ := hlayout
      simp only [Tag.places, fitPlaces_one, fitPlaces_nil, and_true] at hplaces
      exact .postfixUpdate (by simpa [Tag.allowsValue] using hvalue)
        (hchild base (by simp [Slot.toList]) hplaces)
    case ternary =>
      obtain ⟨_, _, rfl, ⟨test, rfl⟩, _, _, rfl, ⟨ifTrue, rfl⟩, _, _, rfl, ⟨ifFalse, rfl⟩, rfl⟩ :=
        hlayout
      simp only [Tag.places, fitPlaces_one, fitPlaces_nil, and_true] at hplaces
      obtain rfl : value = "" := beq_iff_eq.mp hvalue
      exact .ternary (hchild test (by simp [Slot.toList]) hplaces.1)
        (hchild ifTrue (by simp [Slot.toList]) hplaces.2.1)
        (hchild ifFalse (by simp [Slot.toList]) hplaces.2.2)
    case call =>
      obtain ⟨_, _, rfl, ⟨arguments, rfl⟩, rfl⟩ := hlayout
      simp only [Tag.places, fitPlaces_many, fitPlaces_nil, and_true] at hplaces
      refine .call hvalue (fun argument hmem => ?_) ?_
      · exact hchild argument (by simpa [Slot.toList] using hmem) (hplaces argument hmem)
      · simpa [isUnambiguous, list, Slot.listAt] using hunambiguous
    case fieldSelection =>
      obtain ⟨_, _, rfl, ⟨base, rfl⟩, rfl⟩ := hlayout
      simp only [Tag.places, fitPlaces_one, fitPlaces_nil, and_true] at hplaces
      refine .fieldSelection hvalue (hchild base (by simp [Slot.toList]) hplaces) ?_
      simpa [isUnambiguous, child?, Slot.childAt] using hunambiguous
    case index =>
      obtain ⟨_, _, rfl, ⟨base, rfl⟩, _, _, rfl, ⟨position, rfl⟩, rfl⟩ := hlayout
      simp only [Tag.places, fitPlaces_one, fitPlaces_nil, and_true] at hplaces
      obtain rfl : value = "" := beq_iff_eq.mp hvalue
      exact .index (hchild base (by simp [Slot.toList]) hplaces.1)
        (hchild position (by simp [Slot.toList]) hplaces.2)
    all_goals subst hlayout
    case identifier => exact .identifier hvalue
    case intLiteral => exact .intLiteral hvalue
    case floatLiteral => exact .floatLiteral hvalue
    case boolLiteral => exact .boolLiteral (by simpa [Tag.allowsValue] using hvalue)

theorem arraySize_of_every {size : Option Node} (hevery : ∀ node ∈ size, node.Every Fits)
    (htag : ∀ node ∈ size, node.tag.isExpression = true)
    (hlevel : size.all (fun node => decide (Precedence.conditional ≤ Precedence.ofNode node))) :
    ArraySize size := by
  intro node hnode
  refine ⟨expression_of_every node (hevery node hnode) (htag node hnode), ?_⟩
  cases hnode
  simpa using hlevel

theorem declarator_of_every (node : Node) (hevery : node.Every Fits) (htag : node.tag = .declarator) :
    Declarator node := by
  obtain ⟨hfits, hunambiguous, -⟩ := hevery.root
  have hchild := fun child (hmem : child ∈ node.children) => hevery.child hmem
  clear hevery
  obtain ⟨mark, tag, value, qualifiers, slots⟩ := node
  obtain rfl : tag = .declarator := htag
  obtain ⟨hlayout, hplaces, hvalue, hqualifiers, -⟩ := fitsGrammar_iff.mp hfits
  simp only [Tag.layout, Slot.fitAll_cons, Slot.fitAll_nil, Slot.fits_optional] at hlayout
  obtain ⟨_, _, rfl, ⟨size, rfl⟩, _, _, rfl, ⟨initializer, rfl⟩, rfl⟩ := hlayout
  simp only [Tag.places, fitPlaces_ofOption, fitPlaces_nil, and_true] at hplaces
  simp only [mem_children_mk, List.mem_cons, List.not_mem_nil, or_false, exists_eq_or_imp,
    exists_eq_left, Slot.toList_ofOption, Option.mem_toList] at hchild
  obtain rfl : qualifiers = [] := List.isEmpty_iff.mp hqualifiers
  refine .intro hvalue (arraySize_of_every (fun node h => hchild node (Or.inl h)) hplaces.1 ?_)
    (fun node h => expression_of_every node (hchild node (Or.inr h)) (hplaces.2 node h))
  cases size with
  | none => rfl
  | some size => simpa [isUnambiguous, child?, Slot.childAt, Slot.ofOption] using hunambiguous

/-- Declarations and types are checked together, as structures hold declarations and declarations
can hold structures. -/
theorem declaration_and_type_of_every (node : Node) : node.Every Fits →
    (node.tag = .declaration → Declaration node) ∧
      (node.tag.isType = true → TypeSpecifier node) := by
  induction node using Node.induct with
  | h node ih =>
    intro hevery
    obtain ⟨hfits, -, -⟩ := hevery.root
    have hchild := fun child hmem => ih child hmem (hevery.child hmem)
    have hevery' := fun child (hmem : child ∈ node.children) => hevery.child hmem
    clear ih hevery
    obtain ⟨mark, tag, value, qualifiers, slots⟩ := node
    obtain ⟨hlayout, hplaces, hvalue, hqualifiers, hcomplete⟩ := fitsGrammar_iff.mp hfits
    simp only [mem_children_mk] at hchild hevery'
    cases tag <;> simp only [Tag.isType, reduceCtorEq, Bool.false_eq_true, false_implies,
      forall_const, and_self, true_and, and_true]
    case declaration =>
      simp only [Tag.layout, Slot.fitAll_cons, Slot.fitAll_nil, Slot.fits_required,
        Slot.fits_list] at hlayout
      obtain ⟨_, _, rfl, ⟨type, rfl⟩, _, _, rfl, ⟨declarators, rfl⟩, rfl⟩ := hlayout
      simp only [Tag.places, fitPlaces_one, fitPlaces_many, fitPlaces_nil, and_true, beq_iff_eq]
        at hplaces
      obtain rfl : value = "" := beq_iff_eq.mp hvalue
      have htype := (hchild type (by simp [Slot.toList])).2 hplaces.1
      have hdeclarators : ∀ d ∈ declarators, Declarator d := fun d hd =>
        declarator_of_every d (hevery' d (by simp [Slot.toList, hd])) (hplaces.2 d hd)
      have hqualified : ∀ q ∈ qualifiers, Declaration.declarationQualifier.accepts q = true := by
        simpa [Tag.allowsQualifiers] using hqualifiers
      cases htype with
      | name hname =>
        refine .plain hqualified hname hdeclarators ?_
        simpa [isComplete, list, Slot.listAt, child?, Slot.childAt] using hcomplete
      | struct hname hmembers hne => exact .struct hqualified hname hmembers hne hdeclarators
    case typeName =>
      obtain rfl : slots = [] := Slot.fitAll_nil.mp hlayout
      obtain rfl : qualifiers = [] := List.isEmpty_iff.mp hqualifiers
      exact .name hvalue
    case structDefinition =>
      simp only [Tag.layout, Slot.fitAll_cons, Slot.fitAll_nil, Slot.fits_list] at hlayout
      obtain ⟨_, _, rfl, ⟨members, rfl⟩, rfl⟩ := hlayout
      simp only [Tag.places, fitPlaces_many, fitPlaces_nil, and_true, beq_iff_eq] at hplaces
      obtain rfl : qualifiers = [] := List.isEmpty_iff.mp hqualifiers
      refine .struct (by simpa [Tag.allowsValue] using hvalue) (fun member hmember => ?_) ?_
      · exact (hchild member (by simp [Slot.toList, hmember])).1 (hplaces member hmember)
      · simpa [isComplete, list, Slot.listAt] using hcomplete

theorem parameter_of_every (node : Node) (hevery : node.Every Fits) (htag : node.tag = .parameter) :
    Parameter node := by
  obtain ⟨hfits, hunambiguous, -⟩ := hevery.root
  have hchild := fun child (hmem : child ∈ node.children) => hevery.child hmem
  clear hevery
  obtain ⟨mark, tag, value, qualifiers, slots⟩ := node
  obtain rfl : tag = .parameter := htag
  obtain ⟨hlayout, hplaces, hvalue, hqualifiers, -⟩ := fitsGrammar_iff.mp hfits
  simp only [Tag.layout, Slot.fitAll_cons, Slot.fitAll_nil, Slot.fits_optional,
    Slot.fits_required] at hlayout
  obtain ⟨_, _, rfl, ⟨type, rfl⟩, _, _, rfl, ⟨size, rfl⟩, rfl⟩ := hlayout
  simp only [Tag.places, fitPlaces_one, fitPlaces_ofOption, fitPlaces_nil, and_true] at hplaces
  simp only [mem_children_mk, List.mem_cons, List.not_mem_nil, or_false, exists_eq_or_imp,
    exists_eq_left, Slot.toList_one, Slot.toList_ofOption, Option.mem_toList] at hchild
  have htype := (declaration_and_type_of_every type (hchild type (Or.inl rfl))).2 hplaces.1
  refine .intro (by simpa [Tag.allowsQualifiers] using hqualifiers) htype
    (by simpa [Tag.allowsValue] using hvalue)
    (arraySize_of_every (fun node h => hchild node (Or.inr h)) hplaces.2 ?_)
  cases size with
  | none => rfl
  | some size => simpa [isUnambiguous, child?, Slot.childAt, Slot.ofOption] using hunambiguous

theorem forall_expression_of_every {value : Option Node}
    (hevery : ∀ node ∈ value, node.Every Fits)
    (htag : ∀ node ∈ value, node.tag.isExpression = true) : ∀ node ∈ value, Expression node :=
  fun node hnode => expression_of_every node (hevery node hnode) (htag node hnode)

theorem statement_of_every (node : Node) :
    node.Every Fits → node.tag.isStatement = true → Statement node := by
  induction node using Node.induct with
  | h node ih =>
    intro hevery htag
    obtain ⟨hfits, -, helse⟩ := hevery.root
    have hchild : ∀ child ∈ node.children, child.Every Fits ∧
        (child.tag.isStatement = true → Statement child) :=
      fun child hmem => ⟨hevery.child hmem, ih child hmem (hevery.child hmem)⟩
    by_cases hdeclaration : node.tag = .declaration
    · exact .declaration ((declaration_and_type_of_every node hevery).1 hdeclaration)
    clear ih hevery
    obtain ⟨mark, tag, value, qualifiers, slots⟩ := node
    obtain ⟨hlayout, hplaces, hvalue, hqualifiers, -⟩ := fitsGrammar_iff.mp hfits
    obtain rfl := qualifiers_of_isStatement htag hdeclaration hqualifiers
    simp only [mem_children_mk] at hchild
    cases tag <;> simp only [Tag.isStatement, Bool.false_eq_true] at htag
    case declaration => exact absurd rfl hdeclaration
    case directive =>
      obtain rfl : slots = [] := Slot.fitAll_nil.mp hlayout
      exact .directive hvalue
    case jump =>
      obtain rfl : slots = [] := Slot.fitAll_nil.mp hlayout
      exact .jump hvalue
    all_goals
      simp only [Tag.layout, Slot.fitAll_cons, Slot.fitAll_nil, Slot.fits_required,
        Slot.fits_list, Slot.fits_optional] at hlayout
      obtain rfl : value = "" := beq_iff_eq.mp hvalue
    case scope =>
      obtain ⟨_, _, rfl, ⟨statements, rfl⟩, rfl⟩ := hlayout
      simp only [Tag.places, fitPlaces_many, fitPlaces_nil, and_true] at hplaces
      refine .scope fun statement hmem => ?_
      exact (hchild statement (by simp [Slot.toList, hmem])).2 (hplaces statement hmem)
    case expressionStatement =>
      obtain ⟨_, _, rfl, ⟨value, rfl⟩, rfl⟩ := hlayout
      simp only [Tag.places, fitPlaces_ofOption, fitPlaces_nil, and_true] at hplaces
      refine .expressionStatement (forall_expression_of_every (fun node hnode => ?_) hplaces)
      exact (hchild node (by simp [Slot.toList_ofOption, Option.mem_def.mp hnode])).1
    case returnStatement =>
      obtain ⟨_, _, rfl, ⟨value, rfl⟩, rfl⟩ := hlayout
      simp only [Tag.places, fitPlaces_ofOption, fitPlaces_nil, and_true] at hplaces
      refine .returnStatement (forall_expression_of_every (fun node hnode => ?_) hplaces)
      exact (hchild node (by simp [Slot.toList_ofOption, Option.mem_def.mp hnode])).1
    case whileLoop =>
      obtain ⟨_, _, rfl, ⟨test, rfl⟩, _, _, rfl, ⟨body, rfl⟩, rfl⟩ := hlayout
      simp only [Tag.places, fitPlaces_one, fitPlaces_nil, and_true] at hplaces
      exact .whileLoop
        (expression_of_every test (hchild test (by simp [Slot.toList])).1 hplaces.1)
        ((hchild body (by simp [Slot.toList])).2 hplaces.2)
    case doWhileLoop =>
      obtain ⟨_, _, rfl, ⟨body, rfl⟩, _, _, rfl, ⟨test, rfl⟩, rfl⟩ := hlayout
      simp only [Tag.places, fitPlaces_one, fitPlaces_nil, and_true] at hplaces
      exact .doWhileLoop ((hchild body (by simp [Slot.toList])).2 hplaces.1)
        (expression_of_every test (hchild test (by simp [Slot.toList])).1 hplaces.2)
    case ifStatement =>
      obtain ⟨_, _, rfl, ⟨test, rfl⟩, _, _, rfl, ⟨thenBranch, rfl⟩, _, _, rfl, ⟨other, rfl⟩, rfl⟩ :=
        hlayout
      simp only [Tag.places, fitPlaces_one, fitPlaces_ofOption, fitPlaces_nil, and_true]
        at hplaces
      have htest := expression_of_every test (hchild test (by simp [Slot.toList])).1 hplaces.1
      have hthen := (hchild thenBranch (by simp [Slot.toList])).2 hplaces.2.1
      cases other with
      | none => exact .ifThen htest hthen
      | some elseBranch =>
        refine .ifElse htest hthen ?_ ?_
        · exact (hchild elseBranch (by simp [Slot.toList, Slot.ofOption])).2
            (hplaces.2.2 elseBranch rfl)
        · simpa [keepsElse, child?, Slot.childAt, Slot.ofOption] using helse
    case forLoop =>
      obtain ⟨_, _, rfl, ⟨init, rfl⟩, _, _, rfl, ⟨test, rfl⟩, _, _, rfl, ⟨step, rfl⟩, _, _, rfl,
        ⟨body, rfl⟩, rfl⟩ := hlayout
      simp only [Tag.places, fitPlaces_one, fitPlaces_ofOption, fitPlaces_nil, and_true]
        at hplaces
      obtain ⟨hinit, htest, hstep, hbody⟩ := hplaces
      refine .forLoop (fun node hnode => ?_) (forall_expression_of_every (fun node hnode => ?_) htest)
        (forall_expression_of_every (fun node hnode => ?_) hstep) ?_
      · have hevery := (hchild node (by simp [Slot.toList_ofOption, Option.mem_def.mp hnode])).1
        rcases Bool.or_eq_true_iff.mp (hinit node hnode) with htag | htag
        · exact Or.inl ((declaration_and_type_of_every node hevery).1 (beq_iff_eq.mp htag))
        · exact Or.inr (expression_of_every node hevery htag)
      · exact (hchild node (by simp [Slot.toList_ofOption, Option.mem_def.mp hnode])).1
      · exact (hchild node (by simp [Slot.toList_ofOption, Option.mem_def.mp hnode])).1
      · exact (hchild body (by simp [Slot.toList])).2 hbody

theorem topLevel_of_every (node : Node) (hevery : node.Every Fits)
    (htag : node.tag.isTopLevel = true) : TopLevel node := by
  by_cases hdeclaration : node.tag = .declaration
  · exact .declaration ((declaration_and_type_of_every node hevery).1 hdeclaration)
  obtain ⟨hfits, -, -⟩ := hevery.root
  have hchild := fun child (hmem : child ∈ node.children) => hevery.child hmem
  clear hevery
  obtain ⟨mark, tag, value, qualifiers, slots⟩ := node
  obtain ⟨hlayout, hplaces, hvalue, hqualifiers, hcomplete⟩ := fitsGrammar_iff.mp hfits
  simp only [mem_children_mk] at hchild
  cases tag <;> simp only [Tag.isTopLevel, Bool.false_eq_true] at htag
  case declaration => exact absurd rfl hdeclaration
  case directive =>
    obtain rfl : slots = [] := Slot.fitAll_nil.mp hlayout
    obtain rfl : qualifiers = [] := List.isEmpty_iff.mp hqualifiers
    exact .directive hvalue
  all_goals
    simp only [Tag.layout, Slot.fitAll_cons, Slot.fitAll_nil, Slot.fits_required,
      Slot.fits_list] at hlayout
  case precision =>
    obtain ⟨_, _, rfl, ⟨type, rfl⟩, rfl⟩ := hlayout
    simp only [Tag.places, fitPlaces_one, fitPlaces_nil, and_true, beq_iff_eq] at hplaces
    obtain rfl : value = "" := beq_iff_eq.mp hvalue
    simp only [Tag.allowsQualifiers, Bool.and_eq_true, beq_iff_eq, List.length_eq_one_iff]
      at hqualifiers
    obtain ⟨⟨qualifier, rfl⟩, hqualifier⟩ := hqualifiers
    have htype := (declaration_and_type_of_every type (hchild type (by simp [Slot.toList]))).2
      (by rw [hplaces]; rfl)
    cases htype with
    | name hname => exact .precision (by simpa using hqualifier) hname
    | struct => cases hplaces
  case functionPrototype =>
    obtain ⟨_, _, rfl, ⟨type, rfl⟩, _, _, rfl, ⟨parameters, rfl⟩, rfl⟩ := hlayout
    simp only [Tag.places, fitPlaces_one, fitPlaces_many, fitPlaces_nil, and_true, beq_iff_eq]
      at hplaces
    refine .functionPrototype (by simpa [Tag.allowsQualifiers] using hqualifiers)
      ((declaration_and_type_of_every type (hchild type (by simp [Slot.toList]))).2 hplaces.1)
      hvalue (fun p hp => ?_) (by simpa [isComplete, list, Slot.listAt] using hcomplete)
    exact parameter_of_every p (hchild p (by simp [Slot.toList, hp])) (hplaces.2 p hp)
  case functionDefinition =>
    obtain ⟨_, _, rfl, ⟨type, rfl⟩, _, _, rfl, ⟨parameters, rfl⟩, _, _, rfl, ⟨body, rfl⟩, rfl⟩ :=
      hlayout
    simp only [Tag.places, fitPlaces_one, fitPlaces_many, fitPlaces_nil, and_true, beq_iff_eq]
      at hplaces
    have hbody := statement_of_every body (hchild body (by simp [Slot.toList]))
      (by rw [hplaces.2.2]; rfl)
    have hscope := hplaces.2.2
    cases hbody with
    | scope hstatements =>
      refine .functionDefinition (by simpa [Tag.allowsQualifiers] using hqualifiers)
        ((declaration_and_type_of_every type (hchild type (by simp [Slot.toList]))).2 hplaces.1)
        hvalue (fun p hp => ?_) (by simpa [isComplete, list, Slot.listAt] using hcomplete)
        hstatements
      exact parameter_of_every p (hchild p (by simp [Slot.toList, hp])) (hplaces.2.1 p hp)
    | declaration h => cases h <;> cases hscope
    | _ => cases hscope

/-- A shader holds top-level declarations and nothing else. -/
theorem shader_of_every (root : Node) (hevery : root.Every Fits) (htag : root.tag = .shader) :
    ∃ mark declarations, root = ⟨mark, .shader, "", [], [.many declarations]⟩ ∧
      ∀ node ∈ declarations, TopLevel node := by
  obtain ⟨hfits, -, -⟩ := hevery.root
  have hchild := fun child (hmem : child ∈ root.children) => hevery.child hmem
  obtain ⟨mark, tag, value, qualifiers, slots⟩ := root
  obtain rfl : tag = .shader := htag
  obtain ⟨hlayout, hplaces, hvalue, hqualifiers, -⟩ := fitsGrammar_iff.mp hfits
  simp only [mem_children_mk] at hchild
  simp only [Tag.layout, Slot.fitAll_cons, Slot.fitAll_nil, Slot.fits_list] at hlayout
  obtain ⟨_, _, rfl, ⟨declarations, rfl⟩, rfl⟩ := hlayout
  obtain rfl : value = "" := beq_iff_eq.mp hvalue
  obtain rfl : qualifiers = [] := List.isEmpty_iff.mp hqualifiers
  simp only [Tag.places, fitPlaces_many, fitPlaces_nil, and_true] at hplaces
  refine ⟨mark, declarations, rfl, fun node hmem => ?_⟩
  exact topLevel_of_every node (hchild node (by simp [Slot.toList, hmem])) (hplaces node hmem)

end Rules

end Printable

end GlslShrink
