import GlslShrink.Pass.Braces
import GlslShrink.Proofs.Tree.Shape
import GlslShrink.Reading.Statement

/-!
Which trees can be printed and read back. The conditions are checked node by node. `fitsGrammar`
asks for what every tree that was read has: places filled as the layout says, children of the
categories that the grammar puts there, and tokens that the reader of the place accepts.
`isUnambiguous` excludes the three forms that print like something else, and `keepsElse` an `else`
that would be read with an inner `if`.
-/

set_option autoImplicit false

namespace GlslShrink

/-! ### Tokens -/

namespace Word

/-- Whether the text is one word. -/
def isWord (text : String) : Bool :=
  match text.toList with
  | c :: rest => isStart c && rest.all isPart
  | [] => false

/-- Whether the text can name a symbol or a type. -/
def isName (text : String) : Bool :=
  isWord text && !isStructural text

end Word

/-- Whether the reader takes the whole text, for that text itself. -/
def Reader.accepts (reader : Reader String) (text : String) : Bool :=
  reader text.toList == .read text []

/-- Whether the text is that of a directive, without white space at its end. -/
def Text.isDirective (text : String) : Bool :=
  text.toList.head? == some '#' && !text.toList.contains '\n' &&
    trimEnd text.toList == text.toList

/-! ### The grammar, place by place -/

namespace Tag

/-- Whether nodes of this category can stand at the top of a shader. -/
def isTopLevel : Tag → Bool
  | directive | precision | declaration | functionPrototype | functionDefinition => true
  | _ => false

/-- Whether nodes of this category specify a type. -/
def isType : Tag → Bool
  | typeName | structDefinition => true
  | _ => false

/-- For each place of a node, the categories of the children that can stand there. -/
def places : Tag → List (Tag → Bool)
  | shader => [isTopLevel]
  | precision => [(· == typeName)]
  | declaration => [isType, (· == declarator)]
  | structDefinition => [(· == declaration)]
  | declarator => [isExpression, isExpression]
  | functionPrototype => [isType, (· == parameter)]
  | functionDefinition => [isType, (· == parameter), (· == scope)]
  | parameter => [isType, isExpression]
  | scope => [isStatement]
  | expressionStatement => [isExpression]
  | ifStatement => [isExpression, isStatement, isStatement]
  | forLoop =>
    [fun tag => tag == declaration || tag.isExpression, isExpression, isExpression, isStatement]
  | whileLoop => [isExpression, isStatement]
  | doWhileLoop => [isStatement, isExpression]
  | returnStatement => [isExpression]
  | assignment | binary | index => [isExpression, isExpression]
  | unary | postfixUpdate | fieldSelection | call => [isExpression]
  | ternary => [isExpression, isExpression, isExpression]
  | directive | typeName | jump | identifier | intLiteral | floatLiteral | boolLiteral => []

/-- What the value of a node of this category can be. -/
def allowsValue (tag : Tag) (value : String) : Bool :=
  match tag with
  | directive => Text.isDirective value
  | typeName | declarator | functionPrototype | functionDefinition | call | identifier =>
    Word.isName value
  | structDefinition | parameter => value == "" || Word.isName value
  | fieldSelection => Word.isWord value
  | jump => (Token.wordIn ["break", "continue", "discard"]).accepts value
  | assignment => Precedence.isAssignment value
  | binary => (Precedence.ofBinary? value).isSome
  | unary => Precedence.isLeading value
  | postfixUpdate => value == "++" || value == "--"
  | intLiteral => Token.intLiteral.accepts value
  | floatLiteral => Token.floatLiteral.accepts value
  | boolLiteral => value == "true" || value == "false"
  | _ => value == ""

/-- What the qualifiers of a node of this category can be. -/
def allowsQualifiers (tag : Tag) (qualifiers : List String) : Bool :=
  match tag with
  | declaration => qualifiers.all Declaration.declarationQualifier.accepts
  | parameter => qualifiers.all Declaration.parameterQualifier.accepts
  | functionPrototype | functionDefinition =>
    qualifiers.all Declaration.precisionQualifier.accepts
  | precision => qualifiers.length == 1 && qualifiers.all Declaration.precisionQualifier.accepts
  | _ => qualifiers.isEmpty

end Tag

namespace Node

/-- Whether the children in each place have one of the categories that the list has for it. -/
def fitPlaces : List (Slot Node) → List (Tag → Bool) → Bool
  | slot :: slots, allowed :: others =>
    slot.toList.all (fun child => allowed child.tag) && fitPlaces slots others
  | [], _ => true
  | _ :: _, [] => true

/-- Whether a list of parameters is `void` alone, without a name. -/
def isVoidOnly (parameters : List Node) : Bool :=
  match parameters with
  | [parameter] =>
    parameter.qualifiers.isEmpty && parameter.value == "" &&
      (parameter.child? 0).any (fun type => type.tag == .typeName && type.value == "void") &&
      (parameter.child? 1).isNone
  | _ => false

/-- Whether a list of arguments is the name `void` alone. -/
def isVoidArgument (arguments : List Node) : Bool :=
  match arguments with
  | [argument] => argument.tag == .identifier && argument.value == "void"
  | _ => false

/-- What the grammar asks of a node beyond its places and its token. -/
def isComplete (node : Node) : Bool :=
  match node.tag with
  | .declaration =>
    !(node.list 1).isEmpty || (node.child? 0).any (fun type => type.tag == .structDefinition)
  | .structDefinition => !(node.list 0).isEmpty
  | .functionPrototype | .functionDefinition => !isVoidOnly (node.list 1)
  | .assignment =>
    (node.child? 0).all (fun target => decide (Precedence.unary ≤ Precedence.ofNode target))
  | _ => true

/-- Whether the node is as the grammar builds it from its children. -/
def fitsGrammar (node : Node) : Bool :=
  node.fitsLayout && fitPlaces node.slots node.tag.places && node.tag.allowsValue node.value &&
    node.tag.allowsQualifiers node.qualifiers && node.isComplete

/-- Whether the node does not print like another one: no field of an integer literal, no looser
expression than a conditional as the size of an array, and no argument list `void`. -/
def isUnambiguous (node : Node) : Bool :=
  match node.tag with
  | .fieldSelection => (node.child? 0).all (fun base => base.tag != .intLiteral)
  | .declarator =>
    (node.child? 0).all (fun size => decide (Precedence.conditional ≤ Precedence.ofNode size))
  | .parameter =>
    (node.child? 1).all (fun size => decide (Precedence.conditional ≤ Precedence.ofNode size))
  | .call => !isVoidArgument (node.list 0)
  | _ => true

/-- Whether the `else` of the node, if it has one, is read with the node's own `if`. -/
def keepsElse (node : Node) : Bool :=
  node.tag != .ifStatement || (node.child? 2).isNone ||
    !(node.child? 1).any Braces.endsWithOpenIf

/-- Whether a shader can be printed: all its nodes are as the grammar builds them and none prints
like another one. -/
def isPrintable (root : Node) : Bool :=
  root.tag == .shader && root.preorder.all (fun node => node.fitsGrammar && node.isUnambiguous)

/-- The node is one that a text is read as. -/
def Sound (node : Node) : Prop :=
  node.fitsGrammar = true ∧ node.keepsElse = true

/-- The node passes all checks. -/
def Fits (node : Node) : Prop :=
  node.fitsGrammar = true ∧ node.isUnambiguous = true ∧ node.keepsElse = true

/-- The node is one that a text is read as and, if `strict`, prints like no other one. -/
def Checked (strict : Bool) (node : Node) : Prop :=
  node.fitsGrammar = true ∧ (strict = true → node.isUnambiguous = true) ∧ node.keepsElse = true

theorem checked_true_iff {node : Node} : node.Checked true ↔ node.Fits := by
  simp only [Checked, Fits, forall_const]

theorem checked_false_iff {node : Node} : node.Checked false ↔ node.Sound := by
  simp only [Checked, Sound, Bool.false_eq_true, false_imp_iff, true_and]

/-- All nodes of the tree are as the grammar builds them. -/
def Grammatical (root : Node) : Prop :=
  root.Every (fun node => node.fitsGrammar = true)

/-- The parts of the check against the grammar. -/
theorem fitsGrammar_iff {node : Node} :
    node.fitsGrammar = true ↔
      node.fitsLayout = true ∧ fitPlaces node.slots node.tag.places = true ∧
        node.tag.allowsValue node.value = true ∧
        node.tag.allowsQualifiers node.qualifiers = true ∧ node.isComplete = true := by
  simp only [fitsGrammar, Bool.and_eq_true, and_assoc]

theorem tag_of_fitPlaces {slots : List (Slot Node)} {places : List (Tag → Bool)}
    (h : fitPlaces slots places = true) {i : Nat} {slot : Slot Node} {allowed : Tag → Bool}
    (hslot : slots[i]? = some slot) (hplace : places[i]? = some allowed) {child : Node}
    (hchild : child ∈ slot.toList) : allowed child.tag = true := by
  fun_induction fitPlaces slots places generalizing i with
  | case1 first slots allowed' places ih =>
    rw [Bool.and_eq_true, List.all_eq_true] at h
    cases i with
    | zero =>
      cases hslot
      cases hplace
      exact h.1 child hchild
    | succ i => exact ih h.2 hslot hplace
  | case2 => cases hslot
  | case3 => cases hplace

theorem tag_of_mem_list {node child : Node} (hfits : node.fitsGrammar = true) {i : Nat}
    {allowed : Tag → Bool} (hplace : node.tag.places[i]? = some allowed)
    (hchild : child ∈ node.list i) : allowed child.tag = true := by
  rw [list, Slot.listAt] at hchild
  split at hchild
  · rename_i children hslot
    exact tag_of_fitPlaces (fitsGrammar_iff.mp hfits).2.1 hslot hplace hchild
  · cases hchild

theorem tag_of_child? {node child : Node} (hfits : node.fitsGrammar = true) {i : Nat}
    {allowed : Tag → Bool} (hplace : node.tag.places[i]? = some allowed)
    (hchild : node.child? i = some child) : allowed child.tag = true := by
  rw [child?, Slot.childAt] at hchild
  split at hchild
  · rename_i found hslot
    cases hchild
    exact tag_of_fitPlaces (fitsGrammar_iff.mp hfits).2.1 hslot hplace (List.mem_singleton.mpr rfl)
  · cases hchild

theorem Grammatical.fitsLayout {root : Node} (h : root.Grammatical) :
    root.Every (fun node => node.fitsLayout = true) :=
  h.imp fun _ hnode => (fitsGrammar_iff.mp hnode).1

end Node

theorem Braces.endsWithOpenIf_eq (node : Node) :
    endsWithOpenIf node =
      match node.tag with
      | .ifStatement => ((node.child? 2).map endsWithOpenIf).getD true
      | .forLoop => ((node.child? 3).map endsWithOpenIf).getD false
      | .whileLoop => ((node.child? 1).map endsWithOpenIf).getD false
      | _ => false := by
  have hchild : ∀ i, (node.child? i).map endsWithOpenIf =
      Slot.childAt (node.slots.map (Slot.map endsWithOpenIf)) i := fun i => by
    rw [Slot.childAt_map, Node.child?]
  rw [hchild, hchild, hchild]
  exact Node.fold_eq _ node

/-! ### Marks do not matter -/

namespace Slot

variable {α β : Type} (f : α → β)

theorem fits_map (slot : Slot α) (kind : SlotKind) : (slot.map f).fits kind = slot.fits kind := by
  cases slot <;> cases kind <;> rfl

theorem fitAll_map (slots : List (Slot α)) (kinds : List SlotKind) :
    fitAll (slots.map (Slot.map f)) kinds = fitAll slots kinds := by
  induction slots generalizing kinds with
  | nil => cases kinds <;> rfl
  | cons slot slots ih =>
    cases kinds with
    | nil => rfl
    | cons kind kinds => rw [List.map_cons, fitAll, fitAll, fits_map, ih]

end Slot

namespace Node

theorem ofNode_bare (node : Node) : Precedence.ofNode node.bare = Precedence.ofNode node := by
  rw [Precedence.ofNode, bare_tag, bare_value, Precedence.ofNode]

theorem fitPlaces_bare (slots : List (Slot Node)) (places : List (Tag → Bool)) :
    fitPlaces (slots.map (Slot.map bare)) places = fitPlaces slots places := by
  induction slots generalizing places with
  | nil => cases places <;> rfl
  | cons slot slots ih =>
    cases places with
    | nil => rfl
    | cons allowed places =>
      rw [List.map_cons, fitPlaces, fitPlaces, ih, Slot.toList_map, List.all_map]
      simp [Function.comp_def]

theorem isVoidOnly_bare (parameters : List Node) :
    isVoidOnly (parameters.map bare) = isVoidOnly parameters := by
  match parameters with
  | [] => rfl
  | [parameter] => simp [isVoidOnly, child?_bare, Option.any_map]
  | _ :: _ :: _ => rfl

theorem isVoidArgument_bare (arguments : List Node) :
    isVoidArgument (arguments.map bare) = isVoidArgument arguments := by
  match arguments with
  | [] => rfl
  | [argument] => simp [isVoidArgument]
  | _ :: _ :: _ => rfl

theorem isComplete_bare (node : Node) : node.bare.isComplete = node.isComplete := by
  simp [isComplete, list_bare, child?_bare, isVoidOnly_bare, ofNode_bare, Option.any_map, Option.all_map]

theorem fitsGrammar_bare (node : Node) : node.bare.fitsGrammar = node.fitsGrammar := by
  rw [fitsGrammar, fitsGrammar, fitsLayout, fitsLayout, isComplete_bare, bare_slots, bare_tag,
    bare_value, bare_qualifiers, Slot.fitAll_map, fitPlaces_bare]

theorem isUnambiguous_bare (node : Node) : node.bare.isUnambiguous = node.isUnambiguous := by
  simp [isUnambiguous, list_bare, child?_bare, isVoidArgument_bare, ofNode_bare, Option.all_map]

theorem endsWithOpenIf_bare (node : Node) :
    Braces.endsWithOpenIf node.bare = Braces.endsWithOpenIf node := by
  induction node using Node.induct with
  | h node ih =>
    have hchild : ∀ i, ((node.bare.child? i).map Braces.endsWithOpenIf) =
        (node.child? i).map Braces.endsWithOpenIf := by
      intro i
      rw [child?_bare, Option.map_map]
      exact Option.map_congr fun child hchild => ih child (mem_children_of_child? hchild)
    rw [Braces.endsWithOpenIf_eq, Braces.endsWithOpenIf_eq, bare_tag, hchild, hchild, hchild]

theorem keepsElse_bare (node : Node) : node.bare.keepsElse = node.keepsElse := by
  simp [keepsElse, child?_bare, endsWithOpenIf_bare, Option.any_map]

end Node

end GlslShrink
