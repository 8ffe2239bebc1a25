import GlslShrink.Proofs.Printing.Rules
import GlslShrink.Proofs.Reading.Literals
import GlslShrink.Reading.Source

/-!
What is read is a tree of the grammar. Every reader yields nodes whose places are filled with the
categories that the layout asks for and whose tokens the reader of the place accepts. Two facts look
at the text around a construct: a lone `void` is never read as a parameter, since it was tried as an
empty list before, and a statement that ends with an open `if` is never followed by an `else`, since
that `if` would have taken it.
-/

set_option autoImplicit false

namespace GlslShrink

open Reader

namespace Node

/-- The tree is one that a text is read as, and its root is of an allowed category. -/
structure Formed (allowed : Tag → Bool) (node : Node) : Prop where
  sound : node.Every Sound
  tag : allowed node.tag = true

theorem Formed.mono {allowed more : Tag → Bool} {node : Node} (h : Formed allowed node)
    (hmore : ∀ tag, allowed tag = true → more tag = true) : Formed more node :=
  ⟨h.sound, hmore _ h.tag⟩

theorem every_new {tag : Tag} {value : String} {qualifiers : List String}
    {slots : List (Slot Node)} (hlayout : Slot.fitAll slots tag.layout = true)
    (hplaces : fitPlaces slots tag.places = true) (hvalue : tag.allowsValue value = true)
    (hqualifiers : tag.allowsQualifiers qualifiers = true)
    (hcomplete : (new tag value qualifiers slots).isComplete = true)
    (helse : (new tag value qualifiers slots).keepsElse = true)
    (hchildren : ∀ slot ∈ slots, ∀ child ∈ slot.toList, child.Every Sound) :
    (new tag value qualifiers slots).Every Sound := by
  refine every_iff.mpr ⟨⟨?_, helse⟩, fun child hmem => ?_⟩
  · exact Printable.fitsGrammar_iff.mpr ⟨hlayout, hplaces, hvalue, hqualifiers, hcomplete⟩
  · obtain ⟨slot, hslot, hchild⟩ := Printable.mem_children_mk.mp hmem
    exact hchildren slot hslot child hchild

theorem formed_leaf {allowed : Tag → Bool} {tag : Tag} {value : String}
    (htag : allowed tag = true) (hlayout : tag.layout = [])
    (hvalue : tag.allowsValue value = true) (hqualifiers : tag.allowsQualifiers [] = true)
    (hcomplete : (leaf tag value).isComplete = true) (helse : (leaf tag value).keepsElse = true) :
    Formed allowed (leaf tag value) := by
  refine ⟨every_new ?_ Printable.fitPlaces_nil hvalue hqualifiers hcomplete helse (by simp), htag⟩
  rw [hlayout]
  rfl

end Node

open Node Token

/-! ### Tokens -/

theorem yields_word : word.Yields fun w => Word.isWord w = true :=
  fun _ _ _ hread => word_value hread

theorem yields_identifier : identifier.Yields fun w => Word.isName w = true :=
  fun _ _ _ hread => identifier_value hread

theorem yields_wordIn {expected : List String} (hall : ∀ w ∈ expected, Word.isWord w = true) :
    (wordIn expected).Yields fun w => (wordIn expected).accepts w = true :=
  fun _ _ _ hread => (accepts_wordIn hall).mpr (wordIn_value hread)

theorem yields_floatLiteral : floatLiteral.Yields fun text => floatLiteral.accepts text = true :=
  fun _ _ _ hread => accepts_floatLiteral.mpr (floatLiteral_inv hread)

theorem yields_intLiteral : intLiteral.Yields fun text => intLiteral.accepts text = true :=
  fun _ _ _ hread => accepts_intLiteral.mpr (intLiteral_inv hread)

theorem trimEnd_trimEnd (text : List Char) :
    Text.trimEnd (Text.trimEnd text) = Text.trimEnd text := by
  rw [Text.trimEnd, Text.trimEnd, List.reverse_reverse]
  have hhead := List.head?_dropWhile_not Text.isSpace text.reverse
  cases hdropped : text.reverse.dropWhile Text.isSpace with
  | nil => rfl
  | cons c rest =>
    rw [hdropped] at hhead
    have hc : Text.isSpace c = false := hhead
    rw [List.dropWhile_cons_of_neg (by simp [hc])]

/-- The mark at the start of a directive is not trimmed. -/
theorem trimEnd_hash (line : List Char) : ∃ kept, Text.trimEnd ('#' :: line) = '#' :: kept ∧
    ∀ c ∈ kept, c ∈ line := by
  rw [Text.trimEnd, List.reverse_cons, List.dropWhile_append]
  split
  · exact ⟨[], by decide, by simp⟩
  · refine ⟨(line.reverse.dropWhile Text.isSpace).reverse, by simp, fun c hc => ?_⟩
    rw [List.mem_reverse] at hc
    exact List.mem_reverse.mp ((List.dropWhile_suffix _).mem hc)

theorem yields_directive : Token.directive.Yields fun text => Text.isDirective text = true := by
  intro text value rest hread
  obtain ⟨next, hread, -⟩ := lexeme_inv hread
  obtain ⟨hash, next', hhash, hread⟩ := bind_inv hread
  obtain ⟨line, next'', hline, hread⟩ := bind_inv hread
  cases hread
  obtain rfl : hash = '#' := by simpa using (satisfying_inv hhash).2
  obtain ⟨kept, htrim, hkept⟩ := trimEnd_hash line
  have hnewline : '\n' ∉ kept := by
    intro hmem
    have htest := (run_inv hline).2.1 _ (hkept _ hmem)
    exact absurd htest (by decide)
  rw [Text.isDirective, String.toList_ofList, trimEnd_trimEnd, htrim]
  simp [hnewline]

/-! ### Expressions -/

namespace Expression

/-- The tree is one that an expression is read as. -/
def FormedExpression (node : Node) : Prop :=
  Formed Tag.isExpression node

theorem yields_emptyByVoid {Q : Node → Prop} :
    emptyByVoid.Yields fun nodes => ∀ node ∈ nodes, Q node := by
  refine (yields_any _).bind fun _ _ => (yields_any _).bind fun _ _ => yields_pure ?_
  simp

variable {inner : Breadth → Reader Node} (hinner : ∀ breadth, (inner breadth).Yields FormedExpression)

include hinner

theorem yields_call : (call inner).Yields FormedExpression := by
  refine yields_identifier.bind fun name hname => (yields_any _).bind fun _ _ => ?_
  refine (yields_emptyByVoid.orElse ((hinner .withoutComma).separated _)).bind
    fun arguments harguments => (yields_any _).bind fun _ _ => yields_pure ⟨?_, rfl⟩
  refine every_new rfl ?_ hname rfl rfl rfl ?_
  · simpa [Tag.places, fitPlaces, Slot.toList] using fun a ha => (harguments a ha).tag
  · simpa [Slot.toList] using fun a ha => (harguments a ha).sound

theorem yields_primary : (primary inner).Yields FormedExpression := by
  have hparenthesized : (parenthesized inner).Yields FormedExpression :=
    (yields_any _).bind fun _ _ => (hinner .withComma).bind fun node hnode =>
      (yields_any _).bind fun _ _ => yields_pure hnode
  refine (yields_floatLiteral.bind fun text htext => yields_pure ?_).orElse
    ((yields_intLiteral.bind fun text htext => yields_pure ?_).orElse
      (((yields_any _).bind fun _ _ => yields_pure ?_).orElse
        (((yields_any _).bind fun _ _ => yields_pure ?_).orElse
          ((yields_call hinner).orElse
            ((yields_identifier.bind fun name hname => yields_pure ?_).orElse hparenthesized)))))
  · exact formed_leaf rfl rfl htext rfl rfl rfl
  · exact formed_leaf rfl rfl htext rfl rfl rfl
  · exact formed_leaf rfl rfl rfl rfl rfl rfl
  · exact formed_leaf rfl rfl rfl rfl rfl rfl
  · exact formed_leaf rfl rfl hname rfl rfl rfl

theorem yields_trailer {base : Node} (hbase : FormedExpression base) :
    (trailer inner base).Yields fun found => ∀ node ∈ found, FormedExpression node := by
  refine (yields_any _).branch (fun _ _ => ?_) ((yields_any _).branch (fun _ _ => ?_) ?_)
  · refine (hinner .withComma).bind fun position hposition =>
      (yields_any _).bind fun _ _ => yields_pure ?_
    rintro node ⟨⟩
    refine ⟨every_new rfl ?_ rfl rfl rfl rfl ?_, rfl⟩
    · simp [Tag.places, fitPlaces, Slot.toList, hbase.tag, hposition.tag]
    · simp [Slot.toList, hbase.sound, hposition.sound]
  · refine yields_word.bind fun field hfield => yields_pure ?_
    rintro node ⟨⟩
    refine ⟨every_new rfl ?_ hfield rfl rfl rfl ?_, rfl⟩
    · simp [Tag.places, fitPlaces, Slot.toList, hbase.tag]
    · simp [Slot.toList, hbase.sound]
  · have hupdate : update.Yields fun op => op = "++" ∨ op = "--" :=
      fun _ _ _ hread => (operator_of_update hread).2
    refine hupdate.branch (fun op hop => yields_pure ?_) (yields_pure (by simp))
    rintro node ⟨⟩
    refine ⟨every_new rfl ?_ ?_ rfl rfl rfl ?_, rfl⟩
    · simp [Tag.places, fitPlaces, Slot.toList, hbase.tag]
    · simpa [Tag.allowsValue] using hop
    · simp [Slot.toList, hbase.sound]

theorem yields_unary : (unary inner).Yields FormedExpression := by
  have htrailed : (trailed inner).Yields FormedExpression :=
    (yields_primary hinner).bind fun base hbase => Yields.extend (fun _ => yields_trailer hinner) hbase
  refine yields_fix (R := fun _ => FormedExpression) (fun again hagain _ => ?_) ()
  refine (yields_guarded _ _).branch (fun op hop => ?_) htrailed
  refine (hagain ()).bind fun operand hoperand => yields_pure ⟨every_new rfl ?_ hop rfl rfl rfl ?_, rfl⟩
  · simp [Tag.places, fitPlaces, Slot.toList, hoperand.tag]
  · simp [Slot.toList, hoperand.sound]

omit hinner in
theorem formed_binary {op : String} {left right : Node}
    (hop : (Precedence.ofBinary? op).isSome = true) (hleft : FormedExpression left)
    (hright : FormedExpression right) : FormedExpression (.binary op left right) := by
  refine ⟨every_new rfl ?_ hop rfl rfl rfl ?_, rfl⟩
  · simp [Tag.places, fitPlaces, Slot.toList, hleft.tag, hright.tag]
  · simp [Slot.toList, hleft.sound, hright.sound]

omit hinner in
theorem yields_operatorFrom (least : Nat) :
    (operatorFrom least).Yields fun found => (Precedence.ofBinary? found.1).isSome = true := by
  refine (yields_any _).bind fun op _ => ?_
  split
  · rename_i level hlevel
    split
    · exact yields_pure (by simp [hlevel])
    · exact yields_refuse
  · exact yields_refuse

theorem yields_binary (least : Nat) : (binary inner least).Yields FormedExpression := by
  refine yields_fix (R := fun _ => FormedExpression) (fun again hagain least => ?_) least
  refine (yields_unary hinner).bind fun first hfirst => Yields.extend (fun left hleft => ?_) hfirst
  refine (yields_operatorFrom least).branch (fun found hop => ?_) (yields_pure (by simp))
  refine (hagain _).bind fun right hright => yields_pure ?_
  rintro node ⟨⟩
  exact formed_binary hop hleft hright

theorem yields_conditional : (conditional inner).Yields FormedExpression := by
  refine (yields_binary hinner _).bind fun test htest => ?_
  refine (yields_any _).branch (fun _ _ => ?_) (yields_pure htest)
  refine (hinner .withComma).bind fun ifTrue hifTrue => (yields_any _).bind fun _ _ => ?_
  refine (hinner .withoutComma).bind fun ifFalse hifFalse => yields_pure ⟨?_, rfl⟩
  refine every_new rfl ?_ rfl rfl rfl rfl ?_
  · simp [Tag.places, fitPlaces, Slot.toList, htest.tag, hifTrue.tag, hifFalse.tag]
  · simp [Slot.toList, htest.sound, hifTrue.sound, hifFalse.sound]

omit hinner in
/-- Only what binds as tightly as a prefix operator is assigned to. -/
theorem yields_assignmentTo (target : Node) : (assignmentTo target).Yields fun op =>
    Precedence.isAssignment op = true ∧ Precedence.unary ≤ Precedence.ofNode target := by
  unfold assignmentTo
  split
  · rename_i hlevel
    exact (yields_guarded _ _).imp fun op hop => ⟨hop, hlevel⟩
  · exact yields_refuse

theorem yields_assignment : (assignment inner).Yields FormedExpression := by
  refine (yields_conditional hinner).bind fun target htarget => ?_
  refine (yields_assignmentTo target).branch (fun op hop => ?_) (yields_pure htarget)
  refine (hinner .withoutComma).bind fun value hvalue => yields_pure ⟨?_, rfl⟩
  refine every_new rfl ?_ hop.1 rfl ?_ rfl ?_
  · simp [Tag.places, fitPlaces, Slot.toList, htarget.tag, hvalue.tag]
  · simpa [isComplete, child?, Slot.childAt, new] using hop.2
  · simp [Slot.toList, htarget.sound, hvalue.sound]

theorem yields_commaList : (commaList inner).Yields FormedExpression := by
  refine (yields_assignment hinner).bind fun first hfirst =>
    Yields.extend (fun left hleft => ?_) hfirst
  refine (yields_any _).branch (fun _ _ => ?_) (yields_pure (by simp))
  refine (yields_assignment hinner).bind fun right hright => yields_pure ?_
  rintro node ⟨⟩
  exact formed_binary rfl hleft hright

omit hinner in
theorem yields_expression (breadth : Breadth) : (expression breadth).Yields FormedExpression := by
  refine yields_fix (R := fun _ => FormedExpression) (fun inner hinner breadth => ?_) breadth
  cases breadth with
  | withComma => exact yields_commaList hinner
  | withoutComma => exact yields_assignment hinner

end Expression

/-! ### Declarations -/

namespace Declaration

open Expression

theorem yields_declarationQualifier :
    declarationQualifier.Yields fun q => declarationQualifier.accepts q = true := by
  intro text q rest hread
  refine accepts_declarationQualifier.mpr ?_
  rcases orElse_inv hread with hread | ⟨-, hread⟩
  · exact Or.inl (yields_layoutQualifier _ _ _ hread)
  · exact Or.inr (wordIn_value hread)

theorem yields_parameterQualifier :
    parameterQualifier.Yields fun q => parameterQualifier.accepts q = true :=
  yields_wordIn (by decide)

theorem yields_precisionQualifier :
    precisionQualifier.Yields fun q => precisionQualifier.accepts q = true :=
  yields_wordIn (by decide)

theorem yields_typeName : typeName.Yields (Formed (· == .typeName)) :=
  yields_identifier.bind fun _ hname => yields_pure (formed_leaf rfl rfl hname rfl rfl rfl)

theorem yields_arraySize : arraySize.Yields FormedExpression :=
  (yields_any _).bind fun _ _ => (yields_conditional yields_expression).bind fun _ hsize =>
    (yields_any _).bind fun _ _ => yields_pure hsize

theorem formed_declarator {name : String} {size initializer : Option Node}
    (hname : Word.isName name = true) (hsize : ∀ node ∈ size, FormedExpression node)
    (hinitializer : ∀ node ∈ initializer, FormedExpression node) :
    Formed (· == .declarator) (.declarator name size initializer) := by
  refine ⟨every_new ?_ ?_ hname rfl rfl rfl ?_, rfl⟩
  · simp [Tag.layout, Slot.fitAll, Slot.fits_ofOption]
  · simp only [Tag.places, Printable.fitPlaces_ofOption, Printable.fitPlaces_nil, and_true]
    exact ⟨fun node hnode => (hsize node hnode).tag, fun node hnode => (hinitializer node hnode).tag⟩
  · simp only [List.forall_mem_cons, Slot.toList_ofOption, Option.mem_toList]
    exact ⟨fun node hnode => (hsize node hnode).sound,
      fun node hnode => (hinitializer node hnode).sound, by simp⟩

theorem yields_declarator : declarator.Yields (Formed (· == .declarator)) := by
  refine yields_identifier.bind fun name hname => yields_arraySize.optional.bind fun size hsize => ?_
  refine (yields_any _).branch (fun _ _ => ?_) (yields_pure ?_)
  · refine (yields_expression .withoutComma).bind fun value hvalue => yields_pure ?_
    exact formed_declarator hname hsize (by simpa using hvalue)
  · exact formed_declarator hname hsize (by simp)

theorem yields_declarators (type : Node) : (declarators type).Yields fun names =>
    (∀ node ∈ names, Formed (· == .declarator) node) ∧
      (names = [] → type.tag = .structDefinition) := by
  unfold declarators
  split
  · rename_i htag
    exact (yields_declarator.separated _).imp fun names hnames => ⟨hnames, fun _ => htag⟩
  · exact (yields_declarator.separated1 _).imp fun names hnames =>
      ⟨hnames.2, fun hnil => absurd hnil hnames.1⟩

section Members

variable {member : Reader Node} (hmember : member.Yields (Formed (· == .declaration)))

include hmember

theorem yields_typeSpecifier : (typeSpecifier member).Yields (Formed Tag.isType) := by
  refine Yields.orElse ?_ (yields_typeName.imp fun node h => h.mono fun tag htag => ?_)
  · refine (yields_any _).bind fun _ _ => yields_identifier.optional.bind fun name hname => ?_
    refine (yields_any _).bind fun _ _ => hmember.many1.bind fun members hmembers => ?_
    refine (yields_any _).bind fun _ _ => yields_pure ⟨?_, rfl⟩
    refine every_new rfl ?_ ?_ rfl ?_ rfl ?_
    · simpa [Tag.places, fitPlaces, Slot.toList] using fun m hm => (hmembers.2 m hm).tag
    · cases name with
      | none => rfl
      | some name => simp [Tag.allowsValue, hname name rfl]
    · simpa [isComplete, list, Slot.listAt, new] using hmembers.1
    · simpa [Slot.toList] using fun m hm => (hmembers.2 m hm).sound
  · rw [beq_iff_eq] at htag
    rw [htag]
    rfl

theorem yields_body : (body member).Yields (Formed (· == .declaration)) := by
  refine yields_declarationQualifier.many.bind fun qualifiers hqualifiers => ?_
  refine (yields_typeSpecifier hmember).bind fun type htype => ?_
  refine (yields_declarators type).bind fun names hnames => yields_pure ⟨?_, rfl⟩
  refine every_new rfl ?_ rfl ?_ ?_ rfl ?_
  · simp only [Tag.places, Printable.fitPlaces_one, Printable.fitPlaces_many,
      Printable.fitPlaces_nil, and_true]
    exact ⟨htype.tag, fun node hnode => (hnames.1 node hnode).tag⟩
  · simpa [Tag.allowsQualifiers] using hqualifiers
  · cases names with
    | nil => simp [isComplete, list, Slot.listAt, child?, Slot.childAt, new, hnames.2 rfl]
    | cons node others => simp [isComplete, list, Slot.listAt, new]
  · simp only [List.forall_mem_cons, Slot.toList_one, Slot.toList_many, List.not_mem_nil,
      false_implies, implies_true, and_true]
    exact ⟨htype.sound, fun node hnode => (hnames.1 node hnode).sound⟩

end Members

theorem yields_declaration : declaration.Yields (Formed (· == .declaration)) := by
  refine yields_fix (R := fun _ => Formed (· == .declaration)) (fun again hagain _ => ?_) ()
  exact (yields_body (hagain ())).bind fun _ hnode => (yields_any _).bind fun _ _ => yields_pure hnode

theorem yields_precisionStatement : precisionStatement.Yields (Formed (· == .precision)) := by
  refine (yields_any _).bind fun _ _ => yields_precisionQualifier.bind fun q hq => ?_
  refine yields_typeName.bind fun type htype => (yields_any _).bind fun _ _ => yields_pure ⟨?_, rfl⟩
  refine every_new rfl ?_ rfl ?_ rfl rfl ?_
  · simpa [Tag.places, fitPlaces, Slot.toList] using htype.tag
  · simp [Tag.allowsQualifiers, hq]
  · simp [Slot.toList, htype.sound]

theorem yields_parameter : parameter.Yields (Formed (· == .parameter)) := by
  refine yields_parameterQualifier.many.bind fun qualifiers hqualifiers => ?_
  refine (yields_typeSpecifier yields_declaration).bind fun type htype => ?_
  refine yields_identifier.optional.bind fun name hname =>
    yields_arraySize.optional.bind fun size hsize => yields_pure ⟨?_, rfl⟩
  refine every_new ?_ ?_ ?_ ?_ rfl rfl ?_
  · simp [Tag.layout, Slot.fitAll, Slot.fits_ofOption, Slot.fits_required]
  · simp only [Tag.places, Printable.fitPlaces_one, Printable.fitPlaces_ofOption,
      Printable.fitPlaces_nil, and_true]
    exact ⟨htype.tag, fun node hnode => (hsize node hnode).tag⟩
  · cases name with
    | none => rfl
    | some name => simp [Tag.allowsValue, hname name rfl]
  · simpa [Tag.allowsQualifiers] using hqualifiers
  · simp only [List.forall_mem_cons, Slot.toList_one, Slot.toList_ofOption, Option.mem_toList,
      List.not_mem_nil, false_implies, implies_true, and_true]
    exact ⟨htype.sound, fun node hnode => (hsize node hnode).sound⟩

/-- A parameter that is `void` alone was read from that word alone. -/
theorem identifier_of_void {text rest : List Char} {node : Node}
    (h : parameter text = .read node rest) (hvoid : isVoidOnly [node] = true) :
    identifier text = .read "void" rest := by
  obtain ⟨qualifiers, next, hqualifiers, h⟩ := bind_inv h
  obtain ⟨type, next', htype, h⟩ := bind_inv h
  obtain ⟨name, next'', hname, h⟩ := bind_inv h
  obtain ⟨size, next''', hsize, h⟩ := bind_inv h
  cases h
  simp only [isVoidOnly, Bool.and_eq_true, List.isEmpty_iff, beq_iff_eq, Option.any_eq_true,
    Option.isNone_iff_eq_none] at hvoid
  obtain ⟨⟨⟨hnone, hempty⟩, voidType, hchild, htag, hvalue⟩, hmissing⟩ := hvoid
  obtain rfl : qualifiers = [] := hnone
  obtain rfl : type = voidType := Option.some.inj hchild
  have hnameless : name = none := by
    cases name with
    | none => rfl
    | some w =>
      have hisName := yields_identifier.optional _ _ _ hname w rfl
      obtain rfl : w = "" := hempty
      cases hisName
  have hsizeless : size = none := by
    cases size with
    | none => rfl
    | some node => cases hmissing
  subst hnameless hsizeless
  obtain rfl := many_nil_inv takes_parameterQualifier hqualifiers
  obtain rfl := optional_none_inv hname
  obtain rfl := optional_none_inv hsize
  rcases orElse_inv htype with hstruct | ⟨-, htypeName⟩
  · obtain ⟨_, _, -, hstruct⟩ := bind_inv hstruct
    obtain ⟨_, _, -, hstruct⟩ := bind_inv hstruct
    obtain ⟨_, _, -, hstruct⟩ := bind_inv hstruct
    obtain ⟨_, _, -, hstruct⟩ := bind_inv hstruct
    obtain ⟨_, _, -, hstruct⟩ := bind_inv hstruct
    cases hstruct
    cases htag
  · obtain ⟨w, _, hidentifier, htypeName⟩ := bind_inv htypeName
    cases htypeName
    obtain rfl : w = "void" := hvalue
    exact hidentifier

theorem yields_parameterList : parameterList.Yields fun parameters =>
    (∀ node ∈ parameters, Formed (· == .parameter) node) ∧ isVoidOnly parameters = false := by
  intro text parameters rest hread
  obtain ⟨_, next, -, hread⟩ := bind_inv hread
  obtain ⟨found, next', hfound, hread⟩ := bind_inv hread
  obtain ⟨_, next'', hclose, hread⟩ := bind_inv hread
  cases hread
  rcases orElse_inv hfound with hempty | ⟨hrefuses, hlist⟩
  · obtain ⟨_, _, -, hempty⟩ := bind_inv hempty
    obtain ⟨_, _, -, hempty⟩ := bind_inv hempty
    cases hempty
    exact ⟨by simp, rfl⟩
  · refine ⟨(yields_parameter.separated _) _ _ _ hlist, Bool.eq_false_iff.mpr fun hvoid => ?_⟩
    -- a lone `void` would have been read as an empty list
    rcases branch_inv hlist with ⟨first, middle, hfirst, hlist⟩ | ⟨-, hlist⟩
    · obtain ⟨others, next''', hothers, hlist⟩ := bind_inv hlist
      cases hlist
      obtain rfl : others = [] := by
        cases others with
        | nil => rfl
        | cons second others => cases hvoid
      have htakes : (do let _ ← punct ','; parameter).Takes 1 :=
        (takes_punct ',').bind (fun _ => takes_parameter) (by omega)
      obtain rfl := many_nil_inv htakes hothers
      have hword := (guarded_inv (identifier_of_void hfirst hvoid)).1
      have hkeyword : keyword "void" next = .read "void" next' := guarded_read hword rfl
      have hempty : emptyByVoid next = .read [] next' := by
        rw [emptyByVoid, bind_read _ hkeyword, bind_read _ (ahead_read hclose), pure_apply]
      exact not_refuses_of_read hempty hrefuses
    · cases hlist
      cases hvoid

end Declaration

/-! ### Statements -/

namespace Statement

open Expression Declaration Braces

/-- What a statement that was read has to do with the text after it: no `else` follows that an
open `if` at its end would have taken. -/
def FormedBefore (node : Node) (rest : List Char) : Prop :=
  Formed Tag.isStatement node ∧ (endsWithOpenIf node = true → (keyword "else").Refuses rest)

theorem endsWithOpenIf_of_tag {node : Node} (hif : node.tag ≠ .ifStatement)
    (hfor : node.tag ≠ .forLoop) (hwhile : node.tag ≠ .whileLoop) : endsWithOpenIf node = false := by
  rw [endsWithOpenIf_eq]
  split
  · exact absurd ‹_› hif
  · exact absurd ‹_› hfor
  · exact absurd ‹_› hwhile
  · rfl

/-- Statements that end with no other statement. -/
theorem leaves_of_yields {reader : Reader Node} {allowed : Tag → Bool}
    (h : reader.Yields (Formed allowed))
    (hallowed : ∀ tag, allowed tag = true → tag.isStatement = true ∧
      tag ≠ .ifStatement ∧ tag ≠ .forLoop ∧ tag ≠ .whileLoop) : reader.Leaves FormedBefore := by
  intro text node rest hread
  have hnode := h text node rest hread
  obtain ⟨hstatement, hif, hfor, hwhile⟩ := hallowed _ hnode.tag
  refine ⟨⟨hnode.sound, hstatement⟩, fun hopen => ?_⟩
  rw [endsWithOpenIf_of_tag hif hfor hwhile] at hopen
  cases hopen

theorem yields_condition : condition.Yields FormedExpression :=
  (yields_any _).bind fun _ _ => (yields_expression .withComma).bind fun _ hnode =>
    (yields_any _).bind fun _ _ => yields_pure hnode

/-- A node of some category whose only place may hold an expression. -/
theorem formed_optional {tag : Tag} {value : Option Node}
    (hlayout : tag.layout = [.optional]) (hplaces : tag.places = [Tag.isExpression])
    (hvalue : tag.allowsValue "" = true) (hqualifiers : tag.allowsQualifiers [] = true)
    (hcomplete : (new tag "" [] [.ofOption value]).isComplete = true)
    (helse : (new tag "" [] [.ofOption value]).keepsElse = true)
    (h : ∀ node ∈ value, FormedExpression node) :
    Formed (· == tag) (new tag "" [] [.ofOption value]) := by
  refine ⟨every_new ?_ ?_ hvalue hqualifiers hcomplete helse ?_, beq_self_eq_true tag⟩
  · simp [hlayout, Slot.fitAll, Slot.fits_ofOption]
  · simp only [hplaces, Printable.fitPlaces_ofOption, Printable.fitPlaces_nil, and_true]
    exact fun node hnode => (h node hnode).tag
  · simp only [List.forall_mem_cons, Slot.toList_ofOption, Option.mem_toList, List.not_mem_nil,
      false_implies, implies_true, and_true]
    exact fun node hnode => (h node hnode).sound

theorem yields_returnStatement : returnStatement.Yields (Formed (· == .returnStatement)) := by
  refine (yields_any _).bind fun _ _ => (yields_expression .withComma).optional.bind
    fun value hvalue => (yields_any _).bind fun _ _ => yields_pure ?_
  exact formed_optional rfl rfl rfl rfl rfl rfl hvalue

theorem yields_expressionStatement :
    expressionStatement.Yields (Formed (· == .expressionStatement)) := by
  refine (yields_expression .withComma).bind fun value hvalue =>
    (yields_any _).bind fun _ _ => yields_pure ?_
  exact formed_optional rfl rfl rfl rfl rfl rfl (by simpa using hvalue)

theorem yields_emptyStatement : emptyStatement.Yields (Formed (· == .expressionStatement)) :=
  (yields_any _).bind fun _ _ =>
    yields_pure (formed_optional rfl rfl rfl rfl rfl rfl (by simp))

theorem yields_jump : jump.Yields (Formed (· == .jump)) :=
  (yields_wordIn (by decide)).bind fun _ hword => (yields_any _).bind fun _ _ =>
    yields_pure (formed_leaf rfl rfl hword rfl rfl rfl)

theorem yields_directiveStatement : Statement.directive.Yields (Formed (· == .directive)) :=
  yields_directive.bind fun _ htext => yields_pure (formed_leaf rfl rfl htext rfl rfl rfl)

section Nested

variable {inner : Reader Node} (hinner : inner.Leaves FormedBefore)

include hinner

theorem yields_block : (block inner).Yields (Formed (· == .scope)) := by
  have hstatement : inner.Yields (Formed Tag.isStatement) :=
    fun text node rest hread => (hinner text node rest hread).1
  refine (yields_any _).bind fun _ _ => (hstatement.manyUntil _).bind
    fun statements hstatements => yields_pure ⟨?_, rfl⟩
  refine every_new rfl ?_ rfl rfl rfl rfl ?_
  · simpa [Tag.places, fitPlaces, Slot.toList] using fun s hs => (hstatements s hs).tag
  · simpa [Slot.toList] using fun s hs => (hstatements s hs).sound

theorem leaves_whileLoop : (whileLoop inner).Leaves FormedBefore := by
  intro text node rest hread
  obtain ⟨_, _, -, hread⟩ := bind_inv hread
  obtain ⟨test, _, htest, hread⟩ := bind_inv hread
  obtain ⟨body, next, hbody, hread⟩ := bind_inv hread
  cases hread
  have htest := yields_condition _ _ _ htest
  obtain ⟨hformed, hopen⟩ := hinner _ _ _ hbody
  refine ⟨⟨every_new rfl ?_ rfl rfl rfl rfl ?_, rfl⟩, fun h => hopen ?_⟩
  · simp [Tag.places, fitPlaces, Slot.toList, htest.tag, hformed.tag]
  · simp [Slot.toList, htest.sound, hformed.sound]
  · rw [endsWithOpenIf_eq] at h
    exact h

theorem leaves_doWhileLoop : (doWhileLoop inner).Leaves FormedBefore := by
  have hbody : inner.Yields (Formed Tag.isStatement) :=
    fun text node rest hread => (hinner text node rest hread).1
  have hyields : (doWhileLoop inner).Yields (Formed (· == .doWhileLoop)) := by
    refine (yields_any _).bind fun _ _ => hbody.bind fun body hbody => ?_
    refine (yields_any _).bind fun _ _ => yields_condition.bind fun test htest => ?_
    refine (yields_any _).bind fun _ _ => yields_pure ⟨every_new rfl ?_ rfl rfl rfl rfl ?_, rfl⟩
    · simp [Tag.places, fitPlaces, Slot.toList, htest.tag, hbody.tag]
    · simp [Slot.toList, htest.sound, hbody.sound]
  exact leaves_of_yields hyields (by simp [Tag.isStatement])

theorem leaves_forLoop : (forLoop inner).Leaves FormedBefore := by
  intro text node rest hread
  obtain ⟨_, _, -, hread⟩ := bind_inv hread
  obtain ⟨_, _, -, hread⟩ := bind_inv hread
  obtain ⟨init, _, hinit, hread⟩ := bind_inv hread
  obtain ⟨_, _, -, hread⟩ := bind_inv hread
  obtain ⟨test, _, htest, hread⟩ := bind_inv hread
  obtain ⟨_, _, -, hread⟩ := bind_inv hread
  obtain ⟨step, _, hstep, hread⟩ := bind_inv hread
  obtain ⟨_, _, -, hread⟩ := bind_inv hread
  obtain ⟨body, next, hbody, hread⟩ := bind_inv hread
  cases hread
  have hstart : (Declaration.body declaration <|> expression .withComma).Yields
      (Formed fun tag => tag == .declaration || tag.isExpression) := by
    refine ((yields_body yields_declaration).imp fun node h => h.mono ?_).orElse
      ((yields_expression .withComma).imp fun node h => h.mono ?_)
    · exact fun tag htag => by rw [htag, Bool.true_or]
    · exact fun tag htag => by rw [htag, Bool.or_true]
  have hinit := hstart.optional _ _ _ hinit
  have htest := (yields_expression .withComma).optional _ _ _ htest
  have hstep := (yields_expression .withComma).optional _ _ _ hstep
  obtain ⟨hformed, hopen⟩ := hinner _ _ _ hbody
  refine ⟨⟨every_new ?_ ?_ rfl rfl rfl rfl ?_, rfl⟩, fun h => hopen ?_⟩
  · simp [Tag.layout, Slot.fitAll, Slot.fits_ofOption, Slot.fits_required]
  · simp only [Tag.places, Printable.fitPlaces_one, Printable.fitPlaces_ofOption,
      Printable.fitPlaces_nil, and_true]
    exact ⟨fun n hn => (hinit n hn).tag, fun n hn => (htest n hn).tag,
      fun n hn => (hstep n hn).tag, hformed.tag⟩
  · simp only [List.forall_mem_cons, Slot.toList_one, Slot.toList_ofOption, Option.mem_toList,
      List.mem_singleton, forall_eq]
    exact ⟨fun n hn => (hinit n hn).sound, fun n hn => (htest n hn).sound,
      fun n hn => (hstep n hn).sound, hformed.sound⟩
  · rw [endsWithOpenIf_eq] at h
    exact h

/-- An `if` takes the `else` after it, and so does an open `if` at the end of its first branch. -/
theorem leaves_ifStatement : (ifStatement inner).Leaves FormedBefore := by
  intro text node rest hread
  obtain ⟨_, _, -, hread⟩ := bind_inv hread
  obtain ⟨test, _, htest, hread⟩ := bind_inv hread
  obtain ⟨thenBranch, next, hbranch, hread⟩ := bind_inv hread
  have htest := yields_condition _ _ _ htest
  obtain ⟨hthen, hopen⟩ := hinner _ _ _ hbranch
  rcases branch_inv hread with ⟨_, next', helse, hread⟩ | ⟨hrefuses, hread⟩
  · obtain ⟨elseBranch, next'', hbranch', hread⟩ := bind_inv hread
    cases hread
    obtain ⟨hother, hotherOpen⟩ := hinner _ _ _ hbranch'
    have hclosed : endsWithOpenIf thenBranch = false :=
      Bool.eq_false_iff.mpr fun h => not_refuses_of_read helse (hopen h)
    refine ⟨⟨every_new rfl ?_ rfl rfl rfl ?_ ?_, rfl⟩, fun h => hotherOpen ?_⟩
    · simp [Tag.places, fitPlaces, Slot.toList, Slot.ofOption, htest.tag, hthen.tag, hother.tag]
    · simp [keepsElse, child?, Slot.childAt, new, hclosed]
    · simp [Slot.toList, Slot.ofOption, htest.sound, hthen.sound, hother.sound]
    · rw [endsWithOpenIf_eq] at h
      exact h
  · cases hread
    refine ⟨⟨every_new rfl ?_ rfl rfl rfl rfl ?_, rfl⟩, fun _ => hrefuses⟩
    · simp [Tag.places, fitPlaces, Slot.toList, Slot.ofOption, htest.tag, hthen.tag]
    · simp [Slot.toList, Slot.ofOption, htest.sound, hthen.sound]

end Nested

theorem leaves_statement : statement.Leaves FormedBefore := by
  refine leaves_fix (R := fun _ => FormedBefore) (fun again hagain _ => ?_) ()
  have hinner := hagain ()
  have hcategory : ∀ tag ∈ [Tag.scope, .returnStatement, .jump, .directive, .expressionStatement,
      .declaration], tag.isStatement = true ∧ tag ≠ .ifStatement ∧ tag ≠ .forLoop ∧
        tag ≠ .whileLoop := by decide
  have hplain : ∀ {reader : Reader Node} {tag : Tag}, reader.Yields (Formed (· == tag)) →
      tag ∈ [Tag.scope, .returnStatement, .jump, .directive, .expressionStatement, .declaration] →
      reader.Leaves FormedBefore := by
    intro reader tag hyields hmem
    refine leaves_of_yields hyields fun other hother => ?_
    rw [beq_iff_eq] at hother
    rw [hother]
    exact hcategory tag hmem
  exact (hplain (yields_block hinner) (by simp)).orElse ((leaves_ifStatement hinner).orElse
    ((leaves_forLoop hinner).orElse ((leaves_whileLoop hinner).orElse
      ((leaves_doWhileLoop hinner).orElse ((hplain yields_returnStatement (by simp)).orElse
        ((hplain yields_jump (by simp)).orElse ((hplain yields_directiveStatement (by simp)).orElse
          ((hplain yields_emptyStatement (by simp)).orElse
            ((hplain yields_declaration (by simp)).orElse
              (hplain yields_expressionStatement (by simp)))))))))))

theorem yields_function :
    function.Yields (Formed fun tag => tag == .functionPrototype || tag == .functionDefinition) := by
  refine yields_precisionQualifier.many.bind fun qualifiers hqualifiers => ?_
  refine (yields_typeSpecifier yields_declaration).bind fun type htype => ?_
  refine yields_identifier.bind fun name hname => yields_parameterList.bind
    fun parameters hparameters => ?_
  obtain ⟨hformed, hvoid⟩ := hparameters
  have hplaces : ∀ node ∈ parameters, (node.tag == .parameter) = true :=
    fun node hnode => (hformed node hnode).tag
  have hsound : ∀ node ∈ parameters, node.Every Sound := fun node hnode => (hformed node hnode).sound
  have hallowed : (qualifiers.all precisionQualifier.accepts) = true := by simpa using hqualifiers
  refine (yields_any _).branch (fun _ _ => yields_pure ⟨?_, rfl⟩)
    ((yields_block leaves_statement).bind fun body hbody => yields_pure ⟨?_, rfl⟩)
  · refine every_new rfl ?_ hname hallowed ?_ rfl ?_
    · simp only [Tag.places, Printable.fitPlaces_one, Printable.fitPlaces_many,
        Printable.fitPlaces_nil, and_true]
      exact ⟨htype.tag, hplaces⟩
    · simp [isComplete, list, Slot.listAt, new, hvoid]
    · simp only [List.forall_mem_cons, Slot.toList_one, Slot.toList_many, List.mem_singleton,
        forall_eq]
      exact ⟨htype.sound, hsound⟩
  · refine every_new rfl ?_ hname hallowed ?_ rfl ?_
    · simp only [Tag.places, Printable.fitPlaces_one, Printable.fitPlaces_many,
        Printable.fitPlaces_nil, and_true]
      exact ⟨htype.tag, hplaces, hbody.tag⟩
    · simp [isComplete, list, Slot.listAt, new, hvoid]
    · simp only [List.forall_mem_cons, Slot.toList_one, Slot.toList_many, List.mem_singleton,
        forall_eq]
      exact ⟨htype.sound, hsound, hbody.sound⟩

theorem yields_topLevel : topLevel.Yields (Formed Tag.isTopLevel) := by
  have hcategory : ∀ tag ∈ [Tag.directive, .precision, .functionPrototype, .functionDefinition,
      .declaration], tag.isTopLevel = true := by decide
  refine (yields_directiveStatement.imp fun node h => h.mono fun tag htag => ?_).orElse
    ((yields_precisionStatement.imp fun node h => h.mono fun tag htag => ?_).orElse
      ((yields_function.imp fun node h => h.mono fun tag htag => ?_).orElse
        (yields_declaration.imp fun node h => h.mono fun tag htag => ?_)))
  · exact hcategory tag (by simp_all)
  · exact hcategory tag (by simp_all)
  · rw [Bool.or_eq_true, beq_iff_eq, beq_iff_eq] at htag
    rcases htag with rfl | rfl <;> exact hcategory _ (by simp)
  · exact hcategory tag (by simp_all)

end Statement

/-! ### Shaders -/

namespace Source

theorem topLevels_sound {source : List Char} {isFragment : Bool} {bound : Nat} {rest : List Char}
    {declarations : List Node} (h : topLevels source isFragment bound rest = .ok declarations) :
    ∀ node ∈ declarations, Formed Tag.isTopLevel node ∧
      (isFragment = true → isAttribute node = false) := by
  fun_induction topLevels source isFragment bound rest generalizing declarations with
  | case1 =>
    cases h
    simp
  | case2 => cases h
  | case3 => cases h
  | case4 => cases h
  | case5 bound rest _ node next hread hallowed ih =>
    cases hothers : topLevels source isFragment bound next with
    | error error =>
      rw [hothers] at h
      cases h
    | ok others =>
      rw [hothers] at h
      cases h
      refine List.forall_mem_cons.mpr ⟨⟨Statement.yields_topLevel _ _ _ hread, ?_⟩, ih hothers⟩
      simpa using hallowed

/-- What is read as a shader is one, and a fragment shader declares no attribute. -/
theorem shader_sound {source : List Char} {isFragment : Bool} {root : Node}
    (h : Source.shader source isFragment = .ok root) :
    root.tag = .shader ∧ root.Every Sound ∧
      (isFragment = true → ∀ node ∈ root.list 0, isAttribute node = false) := by
  rw [Source.shader] at h
  cases htop : topLevels source isFragment source.length (skipBlank source) with
  | error error =>
    rw [htop] at h
    cases h
  | ok declarations =>
    rw [htop] at h
    cases h
    have hall := topLevels_sound htop
    refine ⟨rfl, every_new rfl ?_ rfl rfl rfl rfl ?_, fun hkind node hmem => (hall node hmem).2 hkind⟩
    · simpa [Tag.places, fitPlaces, Slot.toList] using fun node hmem => (hall node hmem).1.tag
    · simpa [Slot.toList] using fun node hmem => (hall node hmem).1.sound

theorem complete_eq_ok {source : List Char} {reader : Reader Node} {what : String} {node : Node}
    (h : complete source reader what = .ok node) : reader (skipBlank source) = .read node [] := by
  rw [complete] at h
  split at h
  · rename_i hread
    cases h
    exact hread
  · cases h
  · cases h

end Source

/-- The categories of the trees that a start rule reads. -/
def StartRule.allows : StartRule → Tag → Bool
  | .shader | .vertexShader | .fragmentShader => (· == .shader)
  | .expression => Tag.isExpression
  | .statement => Tag.isStatement

/-- What is read under a start rule is a tree of the grammar. -/
theorem parse_formed {source : String} {rule : StartRule} {root : Node}
    (h : parse source rule = .ok root) : Formed rule.allows root := by
  have hshader : ∀ {isFragment : Bool}, Source.shader source.toList isFragment = .ok root →
      Formed (· == .shader) root := by
    intro isFragment hread
    obtain ⟨htag, hsound, -⟩ := Source.shader_sound hread
    exact ⟨hsound, beq_iff_eq.mpr htag⟩
  cases rule with
  | shader | vertexShader | fragmentShader => exact hshader h
  | expression => exact Expression.yields_expression _ _ _ _ (Source.complete_eq_ok h)
  | statement => exact (Statement.leaves_statement _ _ _ (Source.complete_eq_ok h)).1

end GlslShrink
