import GlslShrink.Proofs.Reading.Soundness
import GlslShrink.Proofs.RoundTrip.Statement

/-!
Printed shaders are read back. A top-level declaration is a directive, a precision, a function or a
declaration, in this order of trial; the text of a shader is read one of them after the other, with
the blanks between them skipped. What is read has the shape of what was printed.
-/

set_option autoImplicit false

namespace GlslShrink

open Reader Token Expression Piece Declaration Statement

/-! ### Parameters -/

section Parameters

variable {separator : String} {next : List Piece}

theorem parameterQualifier_seen {q : String} (hq : parameterQualifier.accepts q = true)
    (hnext : Neat next) :
    parameterQualifier (seen (token q :: next)) = .read q (seen next) := by
  have hall : ∀ w ∈ Word.parameterQualifiers ++ Word.precisionQualifiers,
      Word.isWord w = true := by decide
  have hmem := (accepts_wordIn hall).mp hq
  exact wordIn_seen (hall q hmem) hmem hnext

theorem precisionQualifier_seen {q : String} (hq : precisionQualifier.accepts q = true)
    (hnext : Neat next) :
    precisionQualifier (seen (token q :: next)) = .read q (seen next) := by
  have hall : ∀ w ∈ Word.precisionQualifiers, Word.isWord w = true := by decide
  have hmem := (accepts_wordIn hall).mp hq
  exact wordIn_seen (hall q hmem) hmem hnext

theorem Sketch.parameter_eq {mark : Mark} {qualifiers : List String} {type : Node} {name : String}
    {size : Option Node} :
    ((Node.mk mark .parameter name qualifiers [.one type, .ofOption size]).sketch
      separator).parameter =
        Sketch.tokens qualifiers ++ ((type.sketch separator).specifier ++
          token name :: Sketch.arraySize (size.map (Node.sketch separator))) := by
  rw [Node.sketch_eq]
  simp only [List.map_cons, List.map_nil, Slot.map_ofOption]
  show Sketch.tokens qualifiers ++ (type.sketch separator).specifier ++
    token name :: Sketch.arraySize (Slot.childAt _ 1) = _
  rw [Slot.childAt_ofOption rfl, List.append_assoc]

theorem Node.bare_parameter {mark : Mark} {qualifiers : List String} {type : Node} {name : String}
    {size : Option Node} :
    (Node.mk mark .parameter name qualifiers [.one type, .ofOption size]).bare =
      .parameter qualifiers type.bare name (size.map bare) := by
  simp only [bare_mk, List.map_cons, List.map_nil, Slot.map_ofOption]
  rfl

theorem neat_parameter {node : Node} (h : Printable.Parameter node) :
    Neat (node.sketch separator).parameter := by
  obtain ⟨-, htype, -, hsize⟩ := h
  rw [Sketch.parameter_eq]
  simp only [neat_append, neat_token]
  exact ⟨neat_tokens _, (typeRead separator htype).neat, neat_arraySize hsize⟩

theorem reads_parameter {node : Node} (h : Printable.Parameter node) :
    Reads parameter (node.sketch separator).parameter node.bare 2 := by
  obtain ⟨hqualifiers, htype, hname, hsize⟩ := h
  rename_i mark qualifiers type name size
  intro next hnext
  have htypeRead := typeRead separator htype
  have hbracket : (seen next).head? ≠ some '[' := by
    refine follows_head_ne hnext fun tail => ?_
    show 2 ≤ 16
    omega
  have hafter : Neat (Sketch.arraySize (size.map (Node.sketch separator)) ++ next) :=
    neat_append.mpr ⟨neat_arraySize hsize, hnext.neat⟩
  have hstop : Stops Word.isPart
      (seen (Sketch.arraySize (size.map (Node.sketch separator)) ++ next)) := by
    cases size with
    | none => exact hnext.apart
    | some size =>
      show Stops Word.isPart (seen (token "[" :: (_ ++ _ ++ _)))
      exact stops_seen rfl rfl rfl
  have hneat : Neat (token name ::
      (Sketch.arraySize (size.map (Node.sketch separator)) ++ next)) := neat_token.mpr hafter
  obtain ⟨w, tail, hword, hw⟩ := htypeRead.first _ hneat
  have hmany := many_words_seen takes_parameterQualifier
    (neat_append.mpr ⟨htypeRead.neat, hneat⟩)
    (fun q hq pieces hpieces => parameterQualifier_seen (hqualifiers q hq) hpieces)
    (parameterQualifier_refuses hword hw)
  obtain ⟨found, hfound, hgetD⟩ := optional_identifier_seen hname hafter hstop
  rw [Sketch.parameter_eq, List.append_assoc, List.append_assoc, List.cons_append, parameter,
    bind_read _ hmany, bind_read _ (htypeRead.read _ hneat), bind_read _ hfound,
    bind_read _ (optional_arraySize_seen hsize hnext.neat hbracket), pure_apply, hgetD,
    Node.bare_parameter]

/-- The parameter that `void` alone would be. -/
theorem parameter_void {text tail : List Char}
    (h : identifier text = .read "void" (')' :: tail)) :
    parameter text = .read (.parameter [] (.typeName "void") "" none) (')' :: tail) := by
  have hword := (guarded_inv h).1
  have hmany : many parameterQualifier text = .read [] text :=
    many_refuses takes_parameterQualifier (parameterQualifier_refuses hword (by decide))
  have hidentifier : identifier.optional (')' :: tail) = .read none (')' :: tail) :=
    optional_refuses ((word_refuses (stops_cons.mpr rfl)).guarded _)
  have hbracket : ((')' : Char) :: tail).head? ≠ some '[' := by
    rw [List.head?_cons]
    decide
  have hsize : arraySize.optional (')' :: tail) = .read none (')' :: tail) :=
    optional_refuses ((punct_refuses hbracket).bind _)
  rw [parameter, bind_read _ hmany, bind_read _ (typeName_read h), bind_read _ hidentifier,
    bind_read _ hsize, pure_apply, Option.getD_none]

theorem bare_ne_void {node : Node} (h : Printable.Parameter node)
    (hvoid : Node.isVoidOnly [node] = false) :
    node.bare ≠ .parameter [] (.typeName "void") "" none := by
  obtain ⟨-, htype, -, -⟩ := h
  rename_i mark qualifiers type name size
  rw [Node.bare_parameter]
  intro hbare
  injection hbare with _ _ hname hqualifiers hslots
  injection hslots with htypeSlot hsizeSlot
  injection htypeSlot with htypeBare
  have htag : type.tag = .typeName := by
    rw [← Node.bare_tag type, htypeBare]
    rfl
  have hvalue : type.value = "void" := by
    rw [← Node.bare_value type, htypeBare]
    rfl
  cases size with
  | none =>
    simp [Node.isVoidOnly, Node.child?, Slot.childAt, Slot.ofOption, hname, hqualifiers, htag,
      hvalue] at hvoid
  | some size => cases hsizeSlot

/-- The pieces of the parameters of a function. -/
def parameterPieces (separator : String) (parameters : List Node) : List Piece :=
  Sketch.commaSeparated (parameters.map fun node => (node.sketch separator).parameter)

variable {parameters : List Node}

theorem neat_parameterPieces (h : ∀ p ∈ parameters, Printable.Parameter p) :
    Neat (parameterPieces separator parameters) :=
  neat_commaSeparated fun p hp => neat_parameter (h p hp)

theorem parameterList_seen (h : ∀ p ∈ parameters, Printable.Parameter p)
    (hvoid : Node.isVoidOnly parameters = false) (hnext : Neat next) :
    parameterList (seen (token "(" :: (parameterPieces separator parameters ++
      token ")" :: next))) = .read (parameters.map Node.bare) (seen next) := by
  have hinside : Neat (parameterPieces separator parameters ++ token ")" :: next) :=
    neat_append.mpr ⟨neat_parameterPieces h, neat_token.mpr hnext⟩
  have hword : word.Refuses (seen (token ")" :: next)) := word_refuses (stops_seen rfl rfl rfl)
  have hempty : parameter.Refuses (seen (token ")" :: next)) := by
    refine Refuses.bind_of_read (many_refuses takes_parameterQualifier (hword.guarded _)) ?_
    exact Refuses.bind (((hword.guarded _).bind _).orElse ((hword.guarded _).bind _)) _
  have hread : ∀ p ∈ parameters, Reads parameter (p.sketch separator).parameter p.bare 2 :=
    fun p hp => reads_parameter (h p hp)
  have hlist := listOrVoid_seen takes_parameter (fun p hp => neat_parameter (h p hp)) hread hempty
    (fun text tail => parameter_void) (fun p hp => bare_ne_void (h p (by simp [hp])) (hp ▸ hvoid))
    hnext
  rw [parameterList, bind_read _ (punct_seen '(' "(" rfl rfl hinside), parameterPieces,
    bind_read _ hlist, bind_read _ (punct_seen ')' ")" rfl rfl hnext), pure_apply]

end Parameters

/-! ### Top-level declarations -/

/-- Whatever follows, the pieces are read as the top-level declaration. -/
structure TopLevelRead (pieces : List Piece) (node : Node) : Prop where
  neat : Neat pieces
  read : ∀ next, Neat next → topLevel (seen (pieces ++ next)) = .read node (seen next)

section TopLevel

theorem topLevelRead_directive {text : String} (htext : Text.isDirective text = true) :
    TopLevelRead [Piece.directive text] (.directive text) where
  neat := neat_directive.mpr neat_nil
  read next hnext := by
    refine orElse_read _ ?_
    rw [List.singleton_append, Statement.directive, bind_read _ (directive_seen htext hnext),
      pure_apply]

/-- A text that starts as a declaration does is no directive and states no precision. -/
theorem topLevel_of_word {text tail rest : List Char} {w : String} {node : Node}
    (hword : word text = .read w tail) (hw : startsDeclaration w = true)
    (h : (Statement.function <|> declaration) text = .read node rest) :
    topLevel text = .read node rest := by
  have hdirective : Statement.directive.Refuses text :=
    Refuses.bind (directive_refuses (head_ne_of_word hword rfl)) _
  have hprecision : (keyword "precision").Refuses text := by
    refine keyword_refuses_of_word hword ?_
    rintro rfl
    exact absurd hw (by decide)
  exact orElse_refuses hdirective (orElse_refuses (hprecision.bind _) h)

theorem topLevelRead_declaration {pieces : List Piece} {node : Node}
    (h : DeclarationPieces pieces node) : TopLevelRead pieces node where
  neat := h.neat
  read next hnext := by
    have hread := h.read hnext
    obtain ⟨front, rfl, hfront⟩ := h
    rw [List.append_assoc] at hread ⊢
    obtain ⟨w, tail, hword, hw⟩ := hfront.first _ (neat_token.mpr hnext)
    have hfunction := hfront.notFunction _ (follows_closer ';' ";" rfl rfl hnext)
    exact topLevel_of_word hword hw (orElse_refuses hfunction hread)

theorem topLevelRead_precision {qualifier name : String}
    (hqualifier : precisionQualifier.accepts qualifier = true) (hname : Word.isName name = true) :
    TopLevelRead [token "precision", token qualifier, token name, token ";"]
      (.precision qualifier (.typeName name)) where
  neat := by simp [neat_nil]
  read next hnext := by
    have hclose : Neat (token ";" :: next) := neat_token.mpr hnext
    have htype : Neat (token name :: token ";" :: next) := neat_token.mpr hclose
    have hrest : Neat (token qualifier :: token name :: token ";" :: next) :=
      neat_token.mpr htype
    have hisWord : Word.isWord "precision" = true := by decide
    have hword := word_seen hisWord hrest
    refine orElse_refuses (Refuses.bind (directive_refuses (head_ne_of_word hword rfl)) _)
      (orElse_read _ ?_)
    have hread : Declaration.typeName (seen (token name :: token ";" :: next)) =
        .read (.typeName name) (seen (token ";" :: next)) :=
      bind_read _ (identifier_seen hname hclose)
    show precisionStatement (seen (token "precision" :: token qualifier :: token name ::
      token ";" :: next)) = _
    rw [precisionStatement, bind_read _ (keyword_seen hisWord hrest),
      bind_read _ (precisionQualifier_seen hqualifier htype), bind_read _ hread,
      bind_read _ (punct_seen ';' ";" rfl rfl hnext), pure_apply]

variable {separator : String} {qualifiers : List String} {type : Node} {typePieces : List Piece}
  {name : String} {parameters : List Node}

/-- The pieces of a function in front of its body. -/
def headerPieces (separator : String) (qualifiers : List String) (typePieces : List Piece)
    (name : String) (parameters : List Node) : List Piece :=
  Sketch.tokens qualifiers ++ (typePieces ++ token name :: token "(" ::
    (parameterPieces separator parameters ++ [token ")"]))

theorem neat_headerPieces (htype : TypeRead typePieces type)
    (hparameters : ∀ p ∈ parameters, Printable.Parameter p) :
    Neat (headerPieces separator qualifiers typePieces name parameters) := by
  simp only [headerPieces, neat_append, neat_token]
  exact ⟨neat_tokens _, htype.neat, neat_parameterPieces hparameters, neat_nil⟩

/-- A function is read up to its body or its semicolon, for which `rest` stands. -/
theorem function_seen (hqualifiers : ∀ q ∈ qualifiers, precisionQualifier.accepts q = true)
    (htype : TypeRead typePieces type) (hname : Word.isName name = true)
    (hparameters : ∀ p ∈ parameters, Printable.Parameter p)
    (hvoid : Node.isVoidOnly parameters = false) {rest : List Piece} (hrest : Neat rest)
    {node : Node} {after : List Char}
    (h : (punct ';').branch
      (fun _ => pure (.functionPrototype qualifiers type name (parameters.map Node.bare)))
      (do
        let body ← block statement
        return .functionDefinition qualifiers type name (parameters.map Node.bare) body)
      (seen rest) = .read node after) :
    topLevel (seen (headerPieces separator qualifiers typePieces name parameters ++ rest)) =
      .read node after := by
  have hlist : Neat (token "(" :: (parameterPieces separator parameters ++ token ")" :: rest)) := by
    simp [neat_parameterPieces hparameters, hrest]
  have hafter : Neat (token name :: token "(" ::
      (parameterPieces separator parameters ++ token ")" :: rest)) := neat_token.mpr hlist
  obtain ⟨w, tail, hword, hw⟩ := htype.first _ hafter
  have hmany := many_words_seen takes_precisionQualifier
    (neat_append.mpr ⟨htype.neat, hafter⟩)
    (fun q hq pieces hpieces => precisionQualifier_seen (hqualifiers q hq) hpieces)
    (precisionQualifier_refuses hword hw)
  have hdeclared : ∀ q ∈ qualifiers, declarationQualifier.accepts q = true := by
    intro q hq
    have hall : ∀ w ∈ Word.precisionQualifiers, Word.isWord w = true := by decide
    have hmem := (accepts_wordIn hall).mp (hqualifiers q hq)
    exact accepts_declarationQualifier.mpr (Or.inr (List.mem_append_right _ hmem))
  obtain ⟨w', tail', hword', hw'⟩ := declarationFirst_qualifiers hdeclared htype hafter [] neat_nil
  rw [List.append_nil] at hword'
  simp only [headerPieces, List.append_assoc, List.cons_append, List.nil_append]
  refine topLevel_of_word hword' hw' (orElse_read _ ?_)
  rw [Statement.function, bind_read _ hmany, bind_read _ (htype.read _ hafter),
    bind_read _ (identifier_seen hname hlist),
    bind_read _ (parameterList_seen hparameters hvoid hrest), h]

theorem topLevelRead_prototype
    (hqualifiers : ∀ q ∈ qualifiers, precisionQualifier.accepts q = true)
    (htype : TypeRead typePieces type) (hname : Word.isName name = true)
    (hparameters : ∀ p ∈ parameters, Printable.Parameter p)
    (hvoid : Node.isVoidOnly parameters = false) :
    TopLevelRead (headerPieces separator qualifiers typePieces name parameters ++ [token ";"])
      (.functionPrototype qualifiers type name (parameters.map Node.bare)) where
  neat := neat_append.mpr ⟨neat_headerPieces htype hparameters, neat_token.mpr neat_nil⟩
  read next hnext := by
    rw [List.append_assoc]
    refine function_seen hqualifiers htype hname hparameters hvoid (neat_token.mpr hnext) ?_
    exact branch_read _ _ (punct_seen ';' ";" rfl rfl hnext)

theorem topLevelRead_definition
    (hqualifiers : ∀ q ∈ qualifiers, precisionQualifier.accepts q = true)
    (htype : TypeRead typePieces type) (hname : Word.isName name = true)
    (hparameters : ∀ p ∈ parameters, Printable.Parameter p)
    (hvoid : Node.isVoidOnly parameters = false) {statements : List Node}
    (hstatements : ∀ s ∈ statements, Printable.Statement s) :
    TopLevelRead (headerPieces separator qualifiers typePieces name parameters ++
        token "\x7b" :: (statements.flatMap (fun s => (s.sketch separator).statement) ++
          [token "\x7d"]))
      (.functionDefinition qualifiers type name (parameters.map Node.bare)
        (.scope (statements.map Node.bare))) := by
  have hread := fun s hs => statementRead separator (hstatements s hs)
  have hblock : ∀ next, Neat next → Neat (token "\x7b" ::
      (statements.flatMap (fun s => (s.sketch separator).statement) ++ token "\x7d" :: next)) := by
    intro next hnext
    simp [neat_flatMap fun s hs => (hread s hs).neat, hnext]
  refine ⟨neat_append.mpr ⟨neat_headerPieces htype hparameters, hblock [] neat_nil⟩,
    fun next hnext => ?_⟩
  rw [List.append_assoc, List.cons_append, List.append_assoc, List.singleton_append]
  refine function_seen hqualifiers htype hname hparameters hvoid (hblock next hnext) ?_
  have hmark : (punct ';').Refuses (seen (token "\x7b" ::
      (statements.flatMap (fun s => (s.sketch separator).statement) ++ token "\x7d" :: next))) := by
    refine punct_refuses ?_
    rw [head?_seen rfl rfl]
    decide
  rw [branch_refuses _ _ hmark]
  exact bind_read _ (reads_block hread hnext)

theorem Sketch.header_eq {mark : Mark} {tag : Tag} {others : List (Slot Node)} :
    Sketch.functionHeader (Node.mk mark tag name qualifiers (.one type :: .many parameters :: others))
        ((Slot.one type :: .many parameters :: others).map (Slot.map (Node.sketch separator))) =
      headerPieces separator qualifiers (type.sketch separator).specifier name parameters := by
  show Sketch.tokens qualifiers ++ (type.sketch separator).specifier ++ token name :: token "(" ::
    Sketch.commaSeparated ((parameters.map (Node.sketch separator)).map Sketch.parameter) ++
      [token ")"] = _
  rw [headerPieces, parameterPieces, List.map_map]
  simp only [List.append_assoc, List.cons_append]
  rfl

/-- Every printable top-level declaration is read back. -/
theorem topLevelRead (separator : String) {node : Node} (h : Printable.TopLevel node) :
    TopLevelRead (node.sketch separator).statement node.bare := by
  cases h with
  | directive htext =>
    rw [Node.sketch_eq]
    exact topLevelRead_directive htext
  | precision hqualifier hname =>
    rw [Node.sketch_eq]
    exact topLevelRead_precision hqualifier hname
  | declaration hnode =>
    rw [Sketch.statement_eq_declaration hnode.tag_eq]
    exact topLevelRead_declaration (declarationPieces separator hnode)
  | @functionPrototype mark qualifiers type name parameters hqualifiers htype hname hparameters
      hvoid =>
    rw [Node.sketch_eq]
    show TopLevelRead (Sketch.functionHeader _ _ ++ [token ";"]) _
    rw [Sketch.header_eq, Node.bare_mk]
    exact topLevelRead_prototype hqualifiers (typeRead separator htype) hname hparameters hvoid
  | @functionDefinition mark bodyMark qualifiers type name parameters statements hqualifiers htype
      hname hparameters hvoid hstatements =>
    rw [Node.sketch_eq]
    show TopLevelRead (Sketch.functionHeader _ _ ++
      (Node.sketch separator ⟨bodyMark, .scope, "", [], [.many statements]⟩).statement) _
    rw [Sketch.header_eq, Sketch.scope_eq]
    simp only [Node.bare_mk, List.map_cons, List.map_nil, Slot.map]
    exact topLevelRead_definition hqualifiers (typeRead separator htype) hname hparameters hvoid
      hstatements

end TopLevel

/-! ### Whole shaders -/

section Shader

open Source

variable {separator : String} {declarations : List Node}

theorem topLevelRead_separatedBy (hseparator : ∀ c ∈ separator.toList, Text.isBlank c = true)
    {node : Node} (h : TopLevelRead (node.sketch separator).statement node.bare) :
    TopLevelRead (Sketch.separatedBy separator (node.sketch separator)) node.bare := by
  unfold Sketch.separatedBy
  split
  · exact h
  · have hneat : ∀ next, Neat next → Neat (verbatim separator :: next) := fun next hnext =>
      neat_verbatim.mpr ⟨hseparator, hnext⟩
    refine ⟨neat_append.mpr ⟨h.neat, hneat [] neat_nil⟩, fun next hnext => ?_⟩
    rw [List.append_assoc, List.singleton_append, h.read _ (hneat next hnext),
      seen_verbatim (hneat next hnext)]

/-- The declarations are read one after the other until the text is used up. -/
theorem topLevels_seen {part : Node → List Piece} {source : List Char} {isFragment : Bool}
    (h : ∀ node ∈ declarations, TopLevelRead (part node) node.bare)
    (hfragment : isFragment = true → ∀ node ∈ declarations, isAttribute node.bare = false)
    {bound : Nat} (hbound : (seen (declarations.flatMap part)).length ≤ bound) :
    topLevels source isFragment bound (seen (declarations.flatMap part)) =
      .ok (declarations.map Node.bare) := by
  induction declarations generalizing bound with
  | nil =>
    rw [List.flatMap_nil, seen_nil, topLevels]
    rfl
  | cons node others ih =>
    obtain ⟨hnode, hothers⟩ := List.forall_mem_cons.mp h
    have hneat : Neat (others.flatMap part) := neat_flatMap fun node hmem => (hothers node hmem).neat
    have hread := hnode.read _ hneat
    have hshorter := takes_topLevel _ _ _ hread
    rw [List.flatMap_cons] at hbound ⊢
    obtain ⟨smaller, rfl⟩ : ∃ smaller, bound = smaller + 1 := ⟨bound - 1, by omega⟩
    have hallowed : (isFragment && isAttribute node.bare) = false := by
      rw [Bool.and_eq_false_imp]
      exact fun hkind => hfragment hkind node (by simp)
    have hfragments : isFragment = true → ∀ node ∈ others, isAttribute node.bare = false :=
      fun hkind node hmem => hfragment hkind node (List.mem_cons_of_mem _ hmem)
    rw [topLevels_read hread hallowed, ih hothers hfragments (by omega)]
    rfl

theorem isAttribute_bare (node : Node) : isAttribute node.bare = isAttribute node := by
  rw [isAttribute, isAttribute, Node.hasQualifier, Node.hasQualifier, Node.bare_tag,
    Node.bare_qualifiers]

/-- A printed shader is read back, as a fragment shader too unless it declares an attribute. -/
theorem shader_render {root : Node} (htag : root.tag = .shader) (hevery : root.Every Node.Fits)
    (hseparator : ∀ c ∈ separator.toList, Text.isBlank c = true) {isFragment : Bool}
    (hfragment : isFragment = true → ∀ node ∈ root.list 0, isAttribute node = false) :
    Source.shader (root.render separator).toList isFragment = .ok root.bare := by
  obtain ⟨mark, declarations, rfl, htop⟩ := Printable.shader_of_every root hevery htag
  have hpieces : (Node.mk mark .shader "" [] [.many declarations]).pieces separator =
      declarations.flatMap fun node => Sketch.separatedBy separator (node.sketch separator) := by
    rw [Node.pieces, Node.sketch_eq]
    show (((declarations.map (Node.sketch separator)).map
      (Sketch.separatedBy separator)).flatten : List Piece) = _
    rw [List.map_map, List.flatMap_def]
    rfl
  have hread := fun node hmem =>
    topLevelRead_separatedBy hseparator (topLevelRead separator (htop node hmem))
  have hallowed : isFragment = true → ∀ node ∈ declarations, isAttribute node.bare = false := by
    intro hkind node hmem
    rw [isAttribute_bare]
    exact hfragment hkind node hmem
  rw [Node.render, hpieces, String.toList_ofList, Source.shader]
  have hlength := length_skipBlank_le (write none (declarations.flatMap fun node =>
    Sketch.separatedBy separator (node.sketch separator)))
  rw [show skipBlank (write none _) = seen _ from rfl] at hlength ⊢
  rw [topLevels_seen hread hallowed hlength, Node.bare_mk]
  rfl

end Shader

/-! ### Reading undoes printing -/

theorem Node.every_fits {root : Node} (hprintable : root.isPrintable = true)
    (helse : root.preorder.all Node.keepsElse = true) :
    root.tag = .shader ∧ root.Every Node.Fits := by
  simp only [Node.isPrintable, Bool.and_eq_true, beq_iff_eq, List.all_eq_true] at hprintable helse
  obtain ⟨htag, hnodes⟩ := hprintable
  exact ⟨htag, fun node hnode => ⟨(hnodes node hnode).1, (hnodes node hnode).2, helse node hnode⟩⟩

/-- A printable shader, written with any blank separator, is read back as a tree of the same shape
if and only if every `else` in it belongs to the nearest `if` in front of it. -/
theorem parse_render_iff_keepsElse {root : Node} {separator : String}
    (hprintable : root.isPrintable = true)
    (hseparator : ∀ c ∈ separator.toList, Text.isBlank c = true) :
    (∃ read, parse (root.render separator) .shader = .ok read ∧ root.sameShape read = true) ↔
      root.preorder.all Node.keepsElse = true := by
  constructor
  · rintro ⟨read, hread, hshape⟩
    rw [Node.sameShape_iff] at hshape
    obtain ⟨-, hsound, -⟩ := Source.shader_sound hread
    have hkeeps : read.Every fun node => node.keepsElse = true := hsound.imp fun node h => h.2
    have hbare : ∀ node : Node, node.bare.keepsElse = true ↔ node.keepsElse = true := fun node => by
      rw [Node.keepsElse_bare]
    rw [← Node.every_bare hbare, ← hshape, Node.every_bare hbare] at hkeeps
    exact List.all_eq_true.mpr hkeeps
  · intro helse
    obtain ⟨htag, hfits⟩ := Node.every_fits hprintable helse
    refine ⟨root.bare, shader_render htag hfits hseparator (by simp), ?_⟩
    rw [Node.sameShape_iff, Node.bare_bare]

/-- The function `main` with one statement. -/
def mainOnly (statement : Node) : Node :=
  .shader [.functionDefinition [] (.typeName "void") "main" [] (.scope [statement])]

/-- An `if` without `else` in front of an `else`; `guard` stands between them. -/
def guardedIf (guard : Node → Node) : Node :=
  mainOnly (.ifStatement (.identifier "a")
    (guard (.ifStatement (.identifier "b") (.expressionStatement (some (.identifier "c"))) none))
    (some (.expressionStatement (some (.identifier "d")))))

/-- Braces keep the `else` away from the inner `if`. -/
theorem parse_render_bracedIf :
    (guardedIf fun inner => .scope [inner]).isPrintable = true ∧
      (∃ read, parse ((guardedIf fun inner => .scope [inner]).render "\n") .shader = .ok read ∧
        (guardedIf fun inner => .scope [inner]).sameShape read = true) := by
  have hprintable : (guardedIf fun inner => .scope [inner]).isPrintable = true := by decide +kernel
  have helse : (guardedIf fun inner => .scope [inner]).preorder.all Node.keepsElse = true := by
    decide +kernel
  exact ⟨hprintable, (parse_render_iff_keepsElse hprintable (forall_mem_of_all (by decide))).mpr helse⟩

/-- Without braces the inner `if` takes the `else`, so that a printable tree is read as another. -/
theorem not_parse_render_danglingElse :
    (guardedIf fun inner => inner).isPrintable = true ∧
      ¬ ∃ read, parse ((guardedIf fun inner => inner).render "") .shader = .ok read ∧
        (guardedIf fun inner => inner).sameShape read = true := by
  refine ⟨by decide +kernel, ?_⟩
  rintro ⟨read, hread, hshape⟩
  have hdiffers : (parse ((guardedIf fun inner => inner).render "") .shader).toOption.any
      (guardedIf fun inner => inner).sameShape = false := by decide +kernel
  rw [hread] at hdiffers
  have hother : (guardedIf fun inner => inner).sameShape read = false := hdiffers
  rw [hshape] at hother
  cases hother

end GlslShrink
