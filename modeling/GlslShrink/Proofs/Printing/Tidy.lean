import GlslShrink.Proofs.Reading.Stripped
import GlslShrink.Proofs.RoundTrip.Statement

/-!
What the pieces of a printed tree are. In a tree that fits the grammar every token is free of white
space, every directive is one line with its mark in front and no white space at its end, and only
the separator is written as it is (`Node.Grammatical.tidy_pieces`). This needs no more than the
grammar: it also holds of trees that print like other ones.
-/

set_option autoImplicit false

namespace GlslShrink

open Reader Token Text Piece

/-! ### Tokens -/

/-- No character of the text is white space. -/
def Text.Compact (text : String) : Prop :=
  ∀ c ∈ text.toList, isSpace c = false

namespace Text.Compact

theorem of_plain {text : String} (h : ∀ c ∈ text.toList, isPlain c = true) : Compact text := by
  intro c hc
  have hplain := h c hc
  simp only [isPlain, Bool.and_eq_true, Bool.not_eq_true'] at hplain
  exact hplain.1.1

theorem of_all {text : String} (h : text.toList.all (fun c => !isSpace c) = true) :
    Compact text := by
  simpa [Compact] using h

theorem append {text other : String} (h : Compact text) (hother : Compact other) :
    Compact (text ++ other) := by
  intro c hc
  rw [String.toList_append, List.mem_append] at hc
  exact hc.elim (h c) (hother c)

theorem of_isWord {text : String} (h : Word.isWord text = true) : Compact text :=
  of_plain (plain_of_isWord h)

theorem of_isName {text : String} (h : Word.isName text = true) : Compact text :=
  of_isWord (Bool.and_eq_true_iff.mp h).1

theorem of_wordIn {expected : List String} {text : String}
    (h : (wordIn expected).accepts text = true) : Compact text :=
  of_isWord (word_value (guarded_inv (beq_iff_eq.mp h)).1)

theorem of_mem {texts : List String} {text : String}
    (hall : texts.all (fun text => text.toList.all fun c => !isSpace c) = true)
    (h : texts.contains text = true) : Compact text :=
  of_all (List.all_eq_true.mp hall text (List.contains_iff_mem.mp h))

theorem of_beq {text other : String} (h : (text == other) = true) (hother : Compact other) :
    Compact text :=
  beq_iff_eq.mp h ▸ hother

theorem of_layoutEntry {entry : String} (h : Declaration.LayoutEntry entry) : Compact entry := by
  cases h with
  | plain hname => exact of_isWord hname
  | valued hname hnumber =>
    exact ((of_isWord hname).append (of_all rfl)).append (of_plain hnumber.plain)

theorem of_layoutText {entries : List String}
    (h : ∀ entry ∈ entries, Declaration.LayoutEntry entry) :
    Compact (Declaration.layoutText entries) := by
  refine ((of_all rfl).append ?_).append (of_all rfl)
  cases entries with
  | nil => exact of_all rfl
  | cons first others =>
    obtain ⟨hfirst, hothers⟩ := List.forall_mem_cons.mp h
    intro c hc
    rw [Declaration.toList_intercalate, List.mem_append, List.mem_flatMap] at hc
    rcases hc with hc | ⟨entry, hentry, hc⟩
    · exact of_layoutEntry hfirst c hc
    · rcases List.mem_cons.mp hc with rfl | hc
      · rfl
      · exact of_layoutEntry (hothers entry hentry) c hc

theorem of_declarationQualifier {text : String}
    (h : Declaration.declarationQualifier.accepts text = true) : Compact text := by
  rcases Declaration.accepts_declarationQualifier.mp h with ⟨entries, -, hentries, rfl⟩ | hmem
  · exact of_layoutText hentries
  · exact of_isWord (Declaration.isWord_of_mem_qualifiers hmem)

/-- The values of all nodes but directives are free of white space. -/
theorem of_allowsValue {tag : Tag} {value : String} (h : tag.allowsValue value = true)
    (htag : tag ≠ .directive) : Compact value := by
  cases tag with
  | directive => exact absurd rfl htag
  | typeName | declarator | functionPrototype | functionDefinition | call | identifier =>
    exact of_isName h
  | structDefinition | parameter =>
    exact (Bool.or_eq_true_iff.mp h).elim (of_beq · (of_all rfl)) of_isName
  | fieldSelection => exact of_isWord h
  | jump => exact of_wordIn h
  | assignment | unary => exact of_mem rfl h
  | binary =>
    obtain ⟨level, hlevel⟩ := Option.isSome_iff_exists.mp h
    rcases binary_operator hlevel with ⟨rfl, -⟩ | ⟨-, -, hmem⟩
    · exact of_all rfl
    · have hall : operators.all (fun chars => chars.all fun c => !isSpace c) = true := by decide
      exact of_all (List.all_eq_true.mp hall value.toList hmem)
  | postfixUpdate | boolLiteral =>
    exact (Bool.or_eq_true_iff.mp h).elim (of_beq · (of_all rfl)) (of_beq · (of_all rfl))
  | intLiteral => exact of_plain (accepts_intLiteral.mp h).plain
  | floatLiteral => exact of_plain (accepts_floatLiteral.mp h).plain
  | _ => exact of_beq h (of_all rfl)

/-- The qualifiers of all nodes are free of white space. -/
theorem of_allowsQualifiers {tag : Tag} {qualifiers : List String}
    (h : tag.allowsQualifiers qualifiers = true) : ∀ q ∈ qualifiers, Compact q := by
  intro q hq
  cases tag with
  | declaration => exact of_declarationQualifier (List.all_eq_true.mp h q hq)
  | parameter | functionPrototype | functionDefinition =>
    exact of_wordIn (List.all_eq_true.mp h q hq)
  | precision => exact of_wordIn (List.all_eq_true.mp (Bool.and_eq_true_iff.mp h).2 q hq)
  | _ =>
    rw [List.isEmpty_iff.mp h] at hq
    cases hq

end Text.Compact

/-! ### Pieces -/

namespace Piece

/-- Whether the piece adds no white space but a separator of lines and what is inside of a
directive. -/
def isTidy : Piece → Bool
  | token text => text.toList.all fun c => !isSpace c
  | verbatim text => text == "" || text == "\n"
  | directive text => isDirective text

def Tidy (pieces : List Piece) : Prop :=
  ∀ piece ∈ pieces, piece.isTidy = true

variable {pieces others : List Piece} {text : String}

theorem isTidy_token : (token text).isTidy = true ↔ Compact text := by
  simp [isTidy, Compact]

@[simp]
theorem tidy_nil : Tidy [] :=
  List.forall_mem_nil _

@[simp]
theorem tidy_cons {piece : Piece} : Tidy (piece :: pieces) ↔ piece.isTidy = true ∧ Tidy pieces :=
  List.forall_mem_cons

@[simp]
theorem tidy_append : Tidy (pieces ++ others) ↔ Tidy pieces ∧ Tidy others :=
  List.forall_mem_append

theorem tidy_flatten {parts : List (List Piece)} (h : ∀ part ∈ parts, Tidy part) :
    Tidy parts.flatten := by
  intro piece hpiece
  obtain ⟨part, hpart, hpiece⟩ := List.mem_flatten.mp hpiece
  exact h part hpart piece hpiece

end Piece

/-! ### Sketches -/

namespace Sketch

theorem tidy_tokens {texts : List String} (h : ∀ text ∈ texts, Compact text) :
    Piece.Tidy (tokens texts) := by
  intro piece hpiece
  obtain ⟨text, htext, rfl⟩ := List.mem_map.mp hpiece
  exact isTidy_token.mpr (h text htext)

theorem tidy_ifAny {α : Type} {f : α → List Piece} {found : Option α}
    (h : ∀ a ∈ found, Piece.Tidy (f a)) : Piece.Tidy (ifAny f found) := by
  cases found with
  | none => exact tidy_nil
  | some a => exact h a rfl

theorem tidy_commaSeparated {parts : List (List Piece)} (h : ∀ part ∈ parts, Piece.Tidy part) :
    Piece.Tidy (commaSeparated parts) := by
  cases parts with
  | nil => exact tidy_nil
  | cons first others =>
    obtain ⟨hfirst, hothers⟩ := List.forall_mem_cons.mp h
    rw [commaSeparated_cons, tidy_append, List.flatMap_def]
    refine ⟨hfirst, tidy_flatten fun part hpart => ?_⟩
    obtain ⟨other, hother, rfl⟩ := List.mem_map.mp hpart
    exact tidy_cons.mpr ⟨rfl, hothers other hother⟩

/-- Each part that the node of the sketch can play has tidy pieces. A directive can only be a
statement. -/
structure Tidy (sketch : Sketch) : Prop where
  statement : Piece.Tidy sketch.statement
  operation : sketch.tag ≠ .directive → Piece.Tidy sketch.operation
  specifier : sketch.tag ≠ .directive → Piece.Tidy sketch.specifier
  declaration : sketch.tag = .declaration → Piece.Tidy sketch.declaration
  declarator : sketch.tag = .declarator → Piece.Tidy sketch.declarator
  parameter : sketch.tag = .parameter → Piece.Tidy sketch.parameter

theorem Tidy.expression {sketch : Sketch} (h : sketch.Tidy) (htag : sketch.tag.isExpression = true)
    (least : Nat) : Piece.Tidy (sketch.expression least) := by
  have hoperation : Piece.Tidy sketch.operation := by
    refine h.operation fun hdirective => ?_
    rw [hdirective] at htag
    cases htag
  unfold Sketch.expression
  split
  · simp only [List.cons_append, tidy_cons, tidy_append, tidy_nil]
    exact ⟨rfl, hoperation, rfl, trivial⟩
  · exact hoperation

/-- The sketches in the places of a node of this category are tidy, and of categories that can stand
there. -/
structure TidySlots (tag : Tag) (slots : List (Slot Sketch)) : Prop where
  child : ∀ {i : Nat} {allowed : Tag → Bool}, tag.places[i]? = some allowed →
    ∀ sketch ∈ Slot.childAt slots i, sketch.Tidy ∧ allowed sketch.tag = true
  list : ∀ {i : Nat} {allowed : Tag → Bool}, tag.places[i]? = some allowed →
    ∀ sketch ∈ Slot.listAt slots i, sketch.Tidy ∧ allowed sketch.tag = true

namespace TidySlots

variable {tag : Tag} {slots : List (Slot Sketch)} (h : TidySlots tag slots)

include h

theorem operand (i : Nat) (hplace : tag.places[i]? = some Tag.isExpression) (least : Nat) :
    Piece.Tidy (operand (Slot.childAt slots i) least) :=
  tidy_ifAny fun sketch hsketch =>
    (h.child hplace sketch hsketch).1.expression (h.child hplace sketch hsketch).2 least

theorem arraySize (i : Nat) (hplace : tag.places[i]? = some Tag.isExpression) :
    Piece.Tidy (arraySize (Slot.childAt slots i)) := by
  refine tidy_ifAny fun sketch hsketch => ?_
  obtain ⟨htidy, htag⟩ := h.child hplace sketch hsketch
  simp only [List.cons_append, tidy_cons, tidy_append, tidy_nil]
  exact ⟨rfl, htidy.expression htag _, rfl, trivial⟩

theorem condition (i : Nat) (hplace : tag.places[i]? = some Tag.isExpression) :
    Piece.Tidy (condition (Slot.childAt slots i)) := by
  simp only [Sketch.condition, List.cons_append, tidy_cons, tidy_append, tidy_nil]
  exact ⟨rfl, h.operand i hplace _, rfl, trivial⟩

theorem typeOf (hplace : tag.places[0]? = some Tag.isType) : Piece.Tidy (typeOf slots) := by
  refine tidy_ifAny fun sketch hsketch => ?_
  obtain ⟨htidy, htag⟩ := h.child hplace sketch hsketch
  refine htidy.specifier fun hdirective => ?_
  rw [hdirective] at htag
  cases htag

theorem statementOrEmpty (i : Nat) (hplace : tag.places[i]? = some Tag.isStatement) :
    Piece.Tidy (statementOrEmpty (Slot.childAt slots i)) := by
  have hchild := h.child hplace
  cases hsketch : Slot.childAt slots i with
  | none => exact tidy_cons.mpr ⟨rfl, tidy_nil⟩
  | some sketch => exact (hchild sketch hsketch).1.statement

theorem statements {allowed : Tag → Bool} (hplace : tag.places[0]? = some allowed) :
    Piece.Tidy ((Slot.listAt slots 0).map Sketch.statement).flatten :=
  tidy_flatten (List.forall_mem_map.mpr fun sketch hsketch =>
    (h.list hplace sketch hsketch).1.statement)

theorem loopStart
    (hplace : tag.places[0]? = some fun tag => tag == .declaration || tag.isExpression) :
    Piece.Tidy (loopStart (Slot.childAt slots 0)) := by
  have hchild := h.child hplace
  cases hsketch : Slot.childAt slots 0 with
  | none => exact tidy_cons.mpr ⟨rfl, tidy_nil⟩
  | some sketch =>
    obtain ⟨htidy, htag⟩ := hchild sketch hsketch
    rw [Bool.or_eq_true, beq_iff_eq] at htag
    simp only [Sketch.loopStart]
    split
    · exact htidy.declaration ‹_›
    · rw [tidy_append, tidy_cons]
      exact ⟨htidy.expression (htag.resolve_left ‹_›) _, rfl, tidy_nil⟩

end TidySlots

section Node

variable {node : Node} {slots : List (Slot Sketch)} (hfits : node.fitsGrammar = true)
  (hslots : TidySlots node.tag slots)

include hfits

theorem isTidy_value (htag : node.tag ≠ .directive) : (token node.value).isTidy = true :=
  isTidy_token.mpr (Compact.of_allowsValue (Node.fitsGrammar_iff.mp hfits).2.2.1 htag)

theorem tidy_qualifiers : Piece.Tidy (tokens node.qualifiers) :=
  tidy_tokens (Compact.of_allowsQualifiers (Node.fitsGrammar_iff.mp hfits).2.2.2.1)

include hslots

theorem tidy_operationOf (htag : node.tag ≠ .directive) : Piece.Tidy (operationOf node slots) := by
  have hvalue := isTidy_value hfits htag
  cases hcase : node.tag with
  | binary | assignment =>
    rw [hcase] at hslots
    simp only [operationOf, hcase, tidy_append, tidy_cons]
    exact ⟨hslots.operand 0 rfl _, hvalue, hslots.operand 1 rfl _⟩
  | ternary =>
    rw [hcase] at hslots
    simp only [operationOf, hcase, tidy_append, tidy_cons]
    exact ⟨⟨hslots.operand 0 rfl _, rfl, hslots.operand 1 rfl _⟩, rfl, hslots.operand 2 rfl _⟩
  | unary =>
    rw [hcase] at hslots
    simp only [operationOf, hcase, tidy_cons]
    exact ⟨hvalue, hslots.operand 0 rfl _⟩
  | postfixUpdate =>
    rw [hcase] at hslots
    simp only [operationOf, hcase, tidy_append, tidy_cons]
    exact ⟨hslots.operand 0 rfl _, hvalue, tidy_nil⟩
  | call =>
    rw [hcase] at hslots
    have harguments : ∀ sketch ∈ Slot.listAt slots 0,
        Piece.Tidy (sketch.expression Precedence.assignment) := by
      intro sketch hsketch
      obtain ⟨htidy, hexpression⟩ := hslots.list rfl sketch hsketch
      exact htidy.expression hexpression _
    simp only [operationOf, hcase, List.cons_append, tidy_append, tidy_cons]
    exact ⟨hvalue, rfl, tidy_commaSeparated (List.forall_mem_map.mpr harguments), rfl, tidy_nil⟩
  | fieldSelection =>
    rw [hcase] at hslots
    simp only [operationOf, hcase, tidy_append, tidy_cons]
    exact ⟨hslots.operand 0 rfl _, rfl, hvalue, tidy_nil⟩
  | index =>
    rw [hcase] at hslots
    simp only [operationOf, hcase, tidy_append, tidy_cons]
    exact ⟨⟨hslots.operand 0 rfl _, rfl, hslots.operand 1 rfl _⟩, rfl, tidy_nil⟩
  | _ =>
    simp only [operationOf, hcase, tidy_cons]
    exact ⟨hvalue, tidy_nil⟩

theorem tidy_specifierOf (htag : node.tag ≠ .directive) : Piece.Tidy (specifierOf node slots) := by
  have hvalue := isTidy_value hfits htag
  unfold specifierOf
  split
  · rename_i hstruct
    rw [hstruct] at hslots
    have hmembers : ∀ sketch ∈ Slot.listAt slots 0, Piece.Tidy sketch.declaration := by
      intro sketch hsketch
      obtain ⟨htidy, hdeclaration⟩ := hslots.list rfl sketch hsketch
      exact htidy.declaration (beq_iff_eq.mp hdeclaration)
    simp only [List.cons_append, tidy_append, tidy_cons]
    exact ⟨rfl, hvalue, rfl, tidy_flatten (List.forall_mem_map.mpr hmembers), rfl, tidy_nil⟩
  · exact tidy_cons.mpr ⟨hvalue, tidy_nil⟩

theorem tidy_declaratorOf (htag : node.tag = .declarator) :
    Piece.Tidy (declaratorOf node slots) := by
  have hvalue := isTidy_value hfits (by rw [htag]; decide)
  rw [htag] at hslots
  have hinitializer : Piece.Tidy (ifAny
      (fun sketch => token "=" :: sketch.expression Precedence.assignment)
      (Slot.childAt slots 1)) := by
    refine tidy_ifAny fun sketch hsketch => ?_
    obtain ⟨htidy, hexpression⟩ := hslots.child rfl sketch hsketch
    exact tidy_cons.mpr ⟨rfl, htidy.expression hexpression _⟩
  unfold declaratorOf
  simp only [List.cons_append, tidy_append, tidy_cons]
  exact ⟨hvalue, hslots.arraySize 0 rfl, hinitializer⟩

theorem tidy_parameterOf (htag : node.tag = .parameter) : Piece.Tidy (parameterOf node slots) := by
  have hvalue := isTidy_value hfits (by rw [htag]; decide)
  rw [htag] at hslots
  unfold parameterOf
  simp only [tidy_append, tidy_cons]
  exact ⟨⟨tidy_qualifiers hfits, hslots.typeOf rfl⟩, hvalue, hslots.arraySize 1 rfl⟩

theorem tidy_declarationOf (htag : node.tag = .declaration) :
    Piece.Tidy (declarationOf node slots) := by
  rw [htag] at hslots
  have hdeclarators : ∀ sketch ∈ Slot.listAt slots 1, Piece.Tidy sketch.declarator := by
    intro sketch hsketch
    obtain ⟨htidy, hdeclarator⟩ := hslots.list rfl sketch hsketch
    exact htidy.declarator (beq_iff_eq.mp hdeclarator)
  unfold declarationOf
  simp only [tidy_append, tidy_cons]
  exact ⟨⟨⟨tidy_qualifiers hfits, hslots.typeOf rfl⟩,
    tidy_commaSeparated (List.forall_mem_map.mpr hdeclarators)⟩, rfl, tidy_nil⟩

theorem tidy_functionHeader
    (htag : node.tag = .functionPrototype ∨ node.tag = .functionDefinition) :
    Piece.Tidy (functionHeader node slots) := by
  have hvalue := isTidy_value hfits (by rcases htag with htag | htag <;> rw [htag] <;> decide)
  have htype : Piece.Tidy (typeOf slots) :=
    hslots.typeOf (by rcases htag with htag | htag <;> rw [htag] <;> rfl)
  have hplace : node.tag.places[1]? = some (· == .parameter) := by
    rcases htag with htag | htag <;> rw [htag] <;> rfl
  have hparameters : ∀ sketch ∈ Slot.listAt slots 1, Piece.Tidy sketch.parameter := by
    intro sketch hsketch
    obtain ⟨htidy, hparameter⟩ := hslots.list hplace sketch hsketch
    exact htidy.parameter (beq_iff_eq.mp hparameter)
  unfold functionHeader
  simp only [tidy_append, tidy_cons]
  exact ⟨⟨⟨tidy_qualifiers hfits, htype⟩, hvalue, rfl,
    tidy_commaSeparated (List.forall_mem_map.mpr hparameters)⟩, rfl, tidy_nil⟩

theorem tidy_statementOf {separator : String} (hseparator : separator = "" ∨ separator = "\n") :
    Piece.Tidy (statementOf separator node slots) := by
  cases hcase : node.tag with
  | shader =>
    rw [hcase] at hslots
    simp only [statementOf, hcase]
    refine tidy_flatten (List.forall_mem_map.mpr fun sketch hsketch => ?_)
    have hstatement := (hslots.list rfl sketch hsketch).1.statement
    unfold separatedBy
    split
    · exact hstatement
    · rw [tidy_append, tidy_cons]
      refine ⟨hstatement, ?_, tidy_nil⟩
      rcases hseparator with rfl | rfl <;> rfl
  | directive =>
    have hvalue := (Node.fitsGrammar_iff.mp hfits).2.2.1
    rw [hcase] at hvalue
    simp only [statementOf, hcase, tidy_cons]
    exact ⟨hvalue, tidy_nil⟩
  | precision =>
    rw [hcase] at hslots
    have htype : Piece.Tidy (typeOf slots) := by
      refine tidy_ifAny fun sketch hsketch => ?_
      obtain ⟨htidy, htag⟩ := hslots.child rfl sketch hsketch
      exact htidy.specifier (by rw [beq_iff_eq.mp htag]; decide)
    simp only [statementOf, hcase, List.cons_append, tidy_append, tidy_cons]
    exact ⟨rfl, ⟨tidy_qualifiers hfits, htype⟩, rfl, tidy_nil⟩
  | declaration =>
    simp only [statementOf, hcase]
    exact tidy_declarationOf hfits hslots hcase
  | functionPrototype =>
    simp only [statementOf, hcase, tidy_append, tidy_cons]
    exact ⟨tidy_functionHeader hfits hslots (Or.inl hcase), rfl, tidy_nil⟩
  | functionDefinition =>
    have hheader := tidy_functionHeader hfits hslots (Or.inr hcase)
    rw [hcase] at hslots
    simp only [statementOf, hcase, tidy_append]
    refine ⟨hheader, tidy_ifAny fun sketch hsketch => ?_⟩
    exact (hslots.child rfl sketch hsketch).1.statement
  | scope =>
    rw [hcase] at hslots
    simp only [statementOf, hcase, List.cons_append, tidy_append, tidy_cons]
    exact ⟨rfl, hslots.statements rfl, rfl, tidy_nil⟩
  | expressionStatement =>
    rw [hcase] at hslots
    simp only [statementOf, hcase, tidy_append, tidy_cons]
    exact ⟨hslots.operand 0 rfl _, rfl, tidy_nil⟩
  | ifStatement =>
    rw [hcase] at hslots
    simp only [statementOf, hcase, List.cons_append, tidy_append, tidy_cons]
    refine ⟨rfl, ⟨hslots.condition 0 rfl, hslots.statementOrEmpty 1 rfl⟩, ?_⟩
    refine tidy_ifAny fun sketch hsketch => tidy_cons.mpr ⟨rfl, ?_⟩
    exact (hslots.child rfl sketch hsketch).1.statement
  | forLoop =>
    rw [hcase] at hslots
    simp only [statementOf, hcase, List.cons_append, tidy_append, tidy_cons]
    exact ⟨rfl, rfl, ⟨⟨hslots.loopStart rfl, hslots.operand 1 rfl _⟩, rfl, hslots.operand 2 rfl _⟩,
      rfl, hslots.statementOrEmpty 3 rfl⟩
  | whileLoop =>
    rw [hcase] at hslots
    simp only [statementOf, hcase, List.cons_append, tidy_append, tidy_cons]
    exact ⟨rfl, hslots.condition 0 rfl, hslots.statementOrEmpty 1 rfl⟩
  | doWhileLoop =>
    rw [hcase] at hslots
    simp only [statementOf, hcase, List.cons_append, tidy_append, tidy_cons]
    exact ⟨rfl, ⟨hslots.statementOrEmpty 0 rfl, rfl, hslots.condition 1 rfl⟩, rfl, tidy_nil⟩
  | returnStatement =>
    rw [hcase] at hslots
    simp only [statementOf, hcase, List.cons_append, tidy_append, tidy_cons]
    exact ⟨rfl, hslots.operand 0 rfl _, rfl, tidy_nil⟩
  | jump =>
    simp only [statementOf, hcase, tidy_cons]
    exact ⟨isTidy_value hfits (by rw [hcase]; decide), rfl, tidy_nil⟩
  | _ =>
    simp only [statementOf, hcase, tidy_append, tidy_cons]
    exact ⟨tidy_operationOf hfits hslots (by rw [hcase]; decide), rfl, tidy_nil⟩

end Node

end Sketch

/-- The sketch of a tree that fits the grammar is tidy. -/
theorem Node.Grammatical.tidy_sketch {separator : String}
    (hseparator : separator = "" ∨ separator = "\n") {root : Node} (h : root.Grammatical) :
    (root.sketch separator).Tidy := by
  induction root using Node.induct with
  | h node ih =>
    have hfits := h.root
    have hslots : Sketch.TidySlots node.tag
        (node.slots.map (Slot.map (Node.sketch separator))) := by
      constructor
      · intro i allowed hplace sketch hsketch
        rw [Slot.childAt_map, Option.mem_def, Option.map_eq_some_iff] at hsketch
        obtain ⟨child, hchild, rfl⟩ := hsketch
        have hmem := mem_children_of_child? hchild
        refine ⟨ih child hmem (h.child hmem), ?_⟩
        rw [Sketch.tag_eq]
        exact tag_of_child? hfits hplace hchild
      · intro i allowed hplace sketch hsketch
        rw [Slot.listAt_map, List.mem_map] at hsketch
        obtain ⟨child, hchild, rfl⟩ := hsketch
        have hmem := mem_children_of_mem_list hchild
        refine ⟨ih child hmem (h.child hmem), ?_⟩
        rw [Sketch.tag_eq]
        exact tag_of_mem_list hfits hplace hchild
    rw [Node.sketch_eq]
    exact {
      statement := Sketch.tidy_statementOf hfits hslots hseparator
      operation := Sketch.tidy_operationOf hfits hslots
      specifier := Sketch.tidy_specifierOf hfits hslots
      declaration := Sketch.tidy_declarationOf hfits hslots
      declarator := Sketch.tidy_declaratorOf hfits hslots
      parameter := Sketch.tidy_parameterOf hfits hslots }

theorem Node.Grammatical.tidy_pieces {separator : String}
    (hseparator : separator = "" ∨ separator = "\n") {root : Node} (h : root.Grammatical) :
    Tidy (root.pieces separator) := by
  have htidy := h.tidy_sketch hseparator
  unfold Node.pieces
  split
  · rename_i hexpression
    exact htidy.expression (by rwa [Sketch.tag_eq]) _
  · exact htidy.statement

end GlslShrink
