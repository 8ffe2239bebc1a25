import GlslShrink.Proofs.RoundTrip.Expression

/-!
Printed declarations are read back: declarators with their array sizes and initial values, types,
structures with their members, and parameters. A structure holds declarations, so that the result
on declarations is an induction over the rules of the grammar.
-/

set_option autoImplicit false

namespace GlslShrink

open Reader Token Expression Piece Declaration

/-! ### Array sizes and initial values -/

section Declarators

variable {next : List Piece} {separator : String}

theorem follows_head_ne {bound : Nat} (hnext : Follows bound next) {c : Char}
    (hc : ∀ tail, bound ≤ continuation (c :: tail)) : (seen next).head? ≠ some c := by
  intro hhead
  obtain ⟨tail, htail⟩ := List.head?_eq_some_iff.mp hhead
  have hlow := hnext.low
  rw [htail] at hlow
  have := hc tail
  omega

theorem two_le_continuation_equals (tail : List Char) : 2 ≤ continuation ('=' :: tail) := by
  have hread : ∃ op rest, operator ('=' :: tail) = .read op rest ∧ (op = "==" ∨ op = "=") := by
    cases tail with
    | nil => exact ⟨"=", _, lexeme_read rfl, Or.inr rfl⟩
    | cons d tail =>
      by_cases hd : '=' = d
      · subst hd
        exact ⟨"==", _, lexeme_read rfl, Or.inl rfl⟩
      · refine ⟨"=", skipBlank (d :: tail), lexeme_read ?_, Or.inr rfl⟩
        simp [operators, oneOf, Text.afterStart?, hd]
  obtain ⟨op, rest, hread, hop⟩ := hread
  rw [continuation_of_operator hread]
  rcases hop with rfl | rfl <;> decide

theorem neat_arraySize {size : Option Node} (h : Printable.ArraySize size) :
    Neat (Sketch.arraySize (size.map (Node.sketch separator))) := by
  cases size with
  | none => exact neat_nil
  | some node =>
    have hlegible := legible_expression separator (h node rfl).1 1 (by omega)
    show Neat (token "[" :: (node.sketch separator).expression 1 ++ [token "]"])
    simp [hlegible.neat, neat_nil]

/-- An array size is printed without parentheses, as tight as a conditional. -/
theorem reads_arraySize {size : Node} (h : Printable.Expression size)
    (hlevel : Precedence.conditional ≤ Precedence.ofNode size) (hnext : Neat next) :
    arraySize (seen (token "[" :: (size.sketch separator).expression Precedence.comma ++
      token "]" :: next)) = .read size.bare (seen next) := by
  have hplain : (size.sketch separator).expression Precedence.comma =
      (size.sketch separator).operation := by
    have htight : ¬ Precedence.ofNode size < Precedence.comma := Nat.not_lt.mpr (one_le_ofNode h)
    rw [Sketch.expression, Sketch.level_eq, if_neg htight]
  have hlegible : Legible (size.sketch separator).operation size.bare 3 :=
    (legible_operation separator h).mono hlevel
  have hneat : Neat ((size.sketch separator).operation ++ token "]" :: next) := by
    simp [hlegible.neat, hnext]
  have hclose : Follows 2 (token "]" :: next) :=
    (follows_closer ']' "]" rfl rfl hnext).mono (by omega)
  rw [hplain, List.cons_append, arraySize, bind_read _ (punct_seen '[' "[" rfl rfl hneat),
    bind_read _ (hlegible.reads_conditional _ hclose),
    bind_read _ (punct_seen ']' "]" rfl rfl hnext), pure_apply]

theorem optional_arraySize_seen {size : Option Node} (h : Printable.ArraySize size)
    (hneat : Neat next) (hhead : (seen next).head? ≠ some '[') :
    arraySize.optional (seen (Sketch.arraySize (size.map (Node.sketch separator)) ++ next)) =
      .read (size.map Node.bare) (seen next) := by
  cases size with
  | none => exact optional_refuses ((punct_refuses hhead).bind _)
  | some node =>
    obtain ⟨hexpression, hlevel⟩ := h node rfl
    refine optional_read ?_
    show arraySize (seen (token "[" :: (node.sketch separator).expression Precedence.comma ++
      [token "]"] ++ next)) = _
    rw [List.append_assoc]
    exact reads_arraySize hexpression hlevel hneat

/-- The pieces of an initial value. -/
def initializerPieces (separator : String) (initializer : Option Node) : List Piece :=
  Sketch.ifAny (fun sketch => token "=" :: sketch.expression Precedence.assignment)
    (initializer.map (Node.sketch separator))

theorem neat_initializer {initializer : Option Node}
    (h : ∀ node ∈ initializer, Printable.Expression node) :
    Neat (initializerPieces separator initializer) := by
  cases initializer with
  | none => exact neat_nil
  | some node => exact neat_token.mpr (legible_expression separator (h node rfl) 2 (by omega)).neat

/-- After the name of a declarator comes no opening parenthesis, and after its size no bracket. -/
theorem head_initializer {initializer : Option Node} (hnext : Follows 2 next) {c : Char}
    (hc : c = '[' ∨ c = '(') :
    (seen (initializerPieces separator initializer ++ next)).head? ≠ some c := by
  cases initializer with
  | none =>
    refine follows_head_ne hnext fun tail => ?_
    rcases hc with rfl | rfl
    · show 2 ≤ 16
      omega
    · show 2 ≤ 18
      omega
  | some node =>
    show (seen (token "=" :: ((node.sketch separator).expression Precedence.assignment ++
      next))).head? ≠ some c
    rw [head?_seen rfl rfl]
    rcases hc with rfl | rfl <;> decide

theorem head_arraySize {size initializer : Option Node} (hnext : Follows 2 next) :
    (seen (Sketch.arraySize (size.map (Node.sketch separator)) ++
      (initializerPieces separator initializer ++ next))).head? ≠ some '(' := by
  cases size with
  | none => exact head_initializer hnext (Or.inr rfl)
  | some node =>
    show (seen (token "[" :: (_ ++ _ ++ _))).head? ≠ some '('
    rw [head?_seen rfl rfl]
    decide

theorem Node.bare_declarator {mark : Mark} {name : String} {size initializer : Option Node} :
    (Node.mk mark .declarator name [] [.ofOption size, .ofOption initializer]).bare =
      .declarator name (size.map bare) (initializer.map bare) := by
  simp only [bare_mk, List.map_cons, List.map_nil, Slot.map_ofOption]
  rfl

theorem Sketch.declarator_eq {mark : Mark} {name : String} {size initializer : Option Node} :
    ((Node.mk mark .declarator name [] [.ofOption size, .ofOption initializer]).sketch
      separator).declarator = token name :: Sketch.arraySize (size.map (Node.sketch separator)) ++
        initializerPieces separator initializer := by
  rw [Node.sketch_eq]
  cases size <;> cases initializer <;> rfl

theorem neat_declarator {node : Node} (h : Printable.Declarator node) :
    Neat (node.sketch separator).declarator := by
  obtain ⟨hname, hsize, hinitializer⟩ := h
  rw [Sketch.declarator_eq]
  simp [neat_arraySize hsize, neat_initializer hinitializer]

theorem reads_declarator {node : Node} (h : Printable.Declarator node) :
    Reads Declaration.declarator (node.sketch separator).declarator node.bare 2 := by
  obtain ⟨hname, hsize, hinitializer⟩ := h
  rename_i mark name size initializer
  intro next hnext
  have htail : Neat (initializerPieces separator initializer ++ next) :=
    neat_append.mpr ⟨neat_initializer hinitializer, hnext.neat⟩
  have hneat : Neat (Sketch.arraySize (size.map (Node.sketch separator)) ++
      (initializerPieces separator initializer ++ next)) :=
    neat_append.mpr ⟨neat_arraySize hsize, htail⟩
  have hbracket : (seen (initializerPieces separator initializer ++ next)).head? ≠ some '[' :=
    head_initializer hnext (Or.inl rfl)
  rw [Sketch.declarator_eq, List.append_assoc, List.cons_append, Declaration.declarator,
    bind_read _ (identifier_seen hname hneat),
    bind_read _ (optional_arraySize_seen hsize htail hbracket), Node.bare_declarator]
  cases initializer with
  | none =>
    have hequals : equals.Refuses (seen next) :=
      equals_refuses (follows_head_ne hnext two_le_continuation_equals)
    exact branch_refuses _ _ hequals
  | some node =>
    have hlegible := legible_expression separator (hinitializer node rfl) 2 (by omega)
    have hinside : Neat ((node.sketch separator).expression 2 ++ next) :=
      neat_append.mpr ⟨hlegible.neat, hnext.neat⟩
    have hfirst : (seen ((node.sketch separator).expression 2 ++ next)).head? ≠ some '=' := by
      obtain ⟨text, c, chars, rest, hpieces, hchars, hc⟩ := hlegible.first
      rw [hpieces, List.cons_append, head?_seen hchars (isSolid_of_startsOperand hc), ne_eq,
        Option.some.injEq]
      rintro rfl
      cases hc
    show equals.branch _ _ (seen (token "=" :: ((node.sketch separator).expression 2 ++ next))) = _
    rw [branch_read _ _ (equals_seen hinside hfirst),
      bind_read _ (hlegible.reads_withoutComma next hnext), pure_apply, Option.map_some]

end Declarators

/-! ### Qualifiers and types -/

/-- Whether a declaration or a function can start with this word. -/
def startsDeclaration (word : String) : Bool :=
  word == "layout" || (Word.storageQualifiers ++ Word.precisionQualifiers).contains word ||
    word == "struct" || !Word.isStructural word

/-- The pieces start with a word that a declaration can start with. -/
def DeclarationFirst (pieces : List Piece) : Prop :=
  ∀ next, Neat next → ∃ w rest, word (seen (pieces ++ next)) = .read w rest ∧
    startsDeclaration w = true

theorem neat_tokens (words : List String) : Neat (Sketch.tokens words) := by
  intro piece hpiece
  obtain ⟨w, -, rfl⟩ := List.mem_map.mp hpiece
  rfl

theorem neat_flatMap {α : Type} {items : List α} {part : α → List Piece}
    (h : ∀ item ∈ items, Neat (part item)) : Neat (items.flatMap part) := by
  intro piece hpiece
  obtain ⟨item, hitem, hmem⟩ := List.mem_flatMap.mp hpiece
  exact h item hitem piece hmem

/-- Items that are read one by one, whatever follows, are read as a list. -/
theorem many_seen {α β : Type} {reader : Reader β} (htakes : reader.Takes 1) {items : List α}
    {part : α → List Piece} {value : α → β} {next : List Piece} (hneat : Neat next)
    (hparts : ∀ item ∈ items, Neat (part item))
    (hread : ∀ item ∈ items, ∀ pieces, Neat pieces →
      reader (seen (part item ++ pieces)) = .read (value item) (seen pieces))
    (hstop : reader.Refuses (seen next)) :
    many reader (seen (items.flatMap part ++ next)) = .read (items.map value) (seen next) := by
  induction items with
  | nil => exact many_refuses htakes hstop
  | cons item items ih =>
    obtain ⟨hpart, hothers⟩ := List.forall_mem_cons.mp hparts
    obtain ⟨hreadItem, hreadItems⟩ := List.forall_mem_cons.mp hread
    rw [List.flatMap_cons, List.append_assoc]
    refine many_read htakes (hreadItem _ (neat_append.mpr ⟨?_, hneat⟩)) (ih hothers hreadItems)
    exact neat_flatMap hothers

theorem many_words_seen {reader : Reader String} (htakes : reader.Takes 1) {words : List String}
    {next : List Piece} (hneat : Neat next)
    (hread : ∀ w ∈ words, ∀ pieces, Neat pieces →
      reader (seen (token w :: pieces)) = .read w (seen pieces))
    (hstop : reader.Refuses (seen next)) :
    many reader (seen (Sketch.tokens words ++ next)) = .read words (seen next) := by
  have htokens : Sketch.tokens words = words.flatMap (fun w => [token w]) := by
    rw [Sketch.tokens, List.map_eq_flatMap]
  have hall := many_seen htakes hneat (fun w _ => neat_token.mpr neat_nil) hread hstop
  rwa [List.map_id', ← htokens] at hall

/-- The words that are qualifiers or start one. -/
def qualifierWords : List String :=
  "layout" :: (Word.storageQualifiers ++ Word.precisionQualifiers ++ Word.parameterQualifiers)

/-- Whether a type can start with this word. -/
def startsType (word : String) : Bool :=
  word == "struct" || !Word.isStructural word

theorem not_mem_qualifierWords {w : String} (h : startsType w = true) : w ∉ qualifierWords := by
  intro hmem
  have hall : ∀ w ∈ qualifierWords, startsType w = false := by decide
  rw [hall w hmem] at h
  cases h

section Words

variable {text rest : List Char} {w : String}

theorem declarationQualifier_refuses (h : word text = .read w rest) (hw : startsType w = true) :
    declarationQualifier.Refuses text := by
  have hnot := not_mem_qualifierWords hw
  refine Refuses.orElse ((guarded_refuses h ?_).bind _) (guarded_refuses h ?_)
  · rw [beq_eq_false_iff_ne]
    rintro rfl
    exact hnot (by simp [qualifierWords])
  · refine Bool.eq_false_iff.mpr fun hmem => hnot ?_
    have hmem' : w ∈ Word.storageQualifiers ++ Word.precisionQualifiers := by simpa using hmem
    exact List.mem_cons_of_mem _ (List.mem_append_left _ hmem')

theorem precisionQualifier_refuses (h : word text = .read w rest) (hw : startsType w = true) :
    precisionQualifier.Refuses text := by
  refine guarded_refuses h (Bool.eq_false_iff.mpr fun hmem => not_mem_qualifierWords hw ?_)
  have hmem' : w ∈ Word.precisionQualifiers := by simpa using hmem
  exact List.mem_cons_of_mem _ (List.mem_append_left _ (List.mem_append_right _ hmem'))

theorem parameterQualifier_refuses (h : word text = .read w rest) (hw : startsType w = true) :
    parameterQualifier.Refuses text := by
  refine guarded_refuses h (Bool.eq_false_iff.mpr fun hmem => not_mem_qualifierWords hw ?_)
  have hmem' : w ∈ Word.parameterQualifiers ++ Word.precisionQualifiers := by simpa using hmem
  rcases List.mem_append.mp hmem' with hmem' | hmem'
  · exact List.mem_cons_of_mem _ (List.mem_append_right _ hmem')
  · exact List.mem_cons_of_mem _ (List.mem_append_left _ (List.mem_append_right _ hmem'))

/-- A text that starts with no type word starts with no type. -/
theorem typeSpecifier_refuses (h : word text = .read w rest) (hw : startsType w = false) :
    (typeSpecifier declaration).Refuses text := by
  rw [startsType, Bool.or_eq_false_iff, beq_eq_false_iff_ne] at hw
  refine Refuses.orElse ((guarded_refuses h ?_).bind _) ((guarded_refuses h ?_).bind _)
  · exact beq_eq_false_iff_ne.mpr hw.1
  · exact hw.2

theorem body_refuses_of_word (h : word.Refuses text) : (body declaration).Refuses text := by
  have hqualifier : declarationQualifier.Refuses text :=
    ((h.guarded _).bind _).orElse (h.guarded _)
  refine Refuses.bind_of_read (many_refuses takes_declarationQualifier hqualifier) ?_
  exact Refuses.bind (((h.guarded _).bind _).orElse ((h.guarded _).bind _)) _

theorem declaration_refuses_of_body (h : (body declaration).Refuses text) :
    declaration.Refuses text := by
  rw [declaration_eq]
  exact h.bind _

theorem typeName_read (h : identifier text = .read w rest) :
    typeSpecifier declaration text = .read (.typeName w) rest := by
  obtain ⟨hword, hname⟩ := guarded_inv h
  have hstruct : w ≠ "struct" := by
    rintro rfl
    cases hname
  refine orElse_refuses ((keyword_refuses_of_word hword hstruct).bind _) ?_
  rw [typeName, bind_read _ h, pure_apply]

end Words

/-! ### Types and declarations -/

/-- The pieces are read as the type, whatever follows. -/
structure TypeRead (pieces : List Piece) (type : Node) : Prop where
  neat : Neat pieces
  first : ∀ next, Neat next → ∃ w rest, word (seen (pieces ++ next)) = .read w rest ∧
    startsType w = true
  read : ∀ next, Neat next →
    typeSpecifier declaration (seen (pieces ++ next)) = .read type (seen next)

/-- The pieces are read as the declaration up to its semicolon, and not as a function. -/
structure DeclarationRead (pieces : List Piece) (node : Node) : Prop where
  neat : Neat pieces
  first : DeclarationFirst pieces
  read : Reads (body declaration) pieces node 1
  notFunction : ∀ next, Follows 1 next → Statement.function.Refuses (seen (pieces ++ next))

/-- The pieces are those of the declaration with its semicolon. -/
def DeclarationPieces (pieces : List Piece) (node : Node) : Prop :=
  ∃ front, pieces = front ++ [token ";"] ∧ DeclarationRead front node

theorem DeclarationPieces.neat {pieces : List Piece} {node : Node}
    (h : DeclarationPieces pieces node) : Neat pieces := by
  obtain ⟨front, rfl, hread⟩ := h
  simp [hread.neat, neat_nil]

theorem DeclarationPieces.read {pieces next : List Piece} {node : Node}
    (h : DeclarationPieces pieces node) (hnext : Neat next) :
    declaration (seen (pieces ++ next)) = .read node (seen next) := by
  obtain ⟨front, rfl, hread⟩ := h
  have hbody := hread.read _ (follows_closer ';' ";" rfl rfl hnext)
  rw [List.append_assoc, List.singleton_append, declaration_eq, bind_read _ hbody,
    bind_read _ (punct_seen ';' ";" rfl rfl hnext), pure_apply]

theorem typeRead_name {name : String} (hname : Word.isName name = true) :
    TypeRead [token name] (.typeName name) where
  neat := neat_token.mpr neat_nil
  first next hnext := by
    rw [Word.isName, Bool.and_eq_true] at hname
    refine ⟨name, seen next, word_seen hname.1 hnext, ?_⟩
    rw [startsType, hname.2, Bool.or_true]
  read next hnext := typeName_read (identifier_seen hname hnext)

/-- The name of a structure may be missing. -/
theorem optional_identifier_seen {name : String} {next : List Piece}
    (hname : name = "" ∨ Word.isName name = true) (hneat : Neat next)
    (hnext : Stops Word.isPart (seen next)) :
    ∃ found, identifier.optional (seen (token name :: next)) = .read found (seen next) ∧
      found.getD "" = name := by
  rcases hname with rfl | hname
  · refine ⟨none, ?_, rfl⟩
    rw [seen_empty hneat]
    exact optional_refuses ((word_refuses (hnext.imp fun c => isPart_of_isStart)).guarded _)
  · exact ⟨some name, optional_read (identifier_seen hname hneat), rfl⟩

section Members

variable {members : List Node} {part : Node → List Piece}

theorem neat_members
    (hmembers : ∀ member ∈ members, DeclarationPieces (part member) member.bare) :
    Neat (members.flatMap part) :=
  neat_flatMap fun member hmem => (hmembers member hmem).neat

/-- The members of a structure, up to the closing brace. -/
theorem many1_members_seen {next : List Piece} (hne : members ≠ []) (hnext : Neat next)
    (hmembers : ∀ member ∈ members, DeclarationPieces (part member) member.bare) :
    many1 declaration (seen (members.flatMap part ++ token "\x7d" :: next)) =
      .read (members.map Node.bare) (seen (token "\x7d" :: next)) := by
  have hstop : declaration.Refuses (seen (token "\x7d" :: next)) :=
    declaration_refuses_of_body (body_refuses_of_word (word_refuses (stops_seen rfl rfl rfl)))
  obtain ⟨first, others, rfl⟩ := List.exists_cons_of_ne_nil hne
  obtain ⟨hfirst, hothers⟩ := List.forall_mem_cons.mp hmembers
  have hclose : Neat (token "\x7d" :: next) := neat_token.mpr hnext
  have hrest := neat_append.mpr ⟨neat_members hothers, hclose⟩
  have hmany := many_seen takes_declaration hclose (fun member hmem => (hothers member hmem).neat)
    (fun member hmem pieces hpieces => (hothers member hmem).read hpieces) hstop
  rw [List.flatMap_cons, List.append_assoc, many1, bind_read _ (hfirst.read hrest),
    bind_read _ hmany, pure_apply, List.map_cons]

theorem typeRead_struct {name : String} (hname : name = "" ∨ Word.isName name = true)
    (hne : members ≠ [])
    (hmembers : ∀ member ∈ members, DeclarationPieces (part member) member.bare) :
    TypeRead (token "struct" :: token name :: token "\x7b" :: members.flatMap part ++
        [token "\x7d"])
      (.structDefinition name (members.map Node.bare)) where
  neat := by simp [neat_members hmembers, neat_nil]
  first next hnext := by
    refine ⟨"struct", _, word_seen (by decide) ?_, by decide⟩
    simp [neat_members hmembers, hnext]
  read next hnext := by
    have hinside : Neat (members.flatMap part ++ token "\x7d" :: next) := by
      simp [neat_members hmembers, hnext]
    have hopen : Neat (token "\x7b" :: (members.flatMap part ++ token "\x7d" :: next)) :=
      neat_token.mpr hinside
    obtain ⟨found, hfound, hgetD⟩ := optional_identifier_seen hname hopen (stops_seen rfl rfl rfl)
    refine orElse_read _ ?_
    rw [List.append_assoc, List.cons_append, List.cons_append, List.cons_append,
      List.singleton_append, structSpecifier,
      bind_read _ (keyword_seen (by decide) (neat_token.mpr hopen)), bind_read _ hfound,
      bind_read _ (punct_seen '\x7b' "\x7b" rfl rfl hinside),
      bind_read _ (many1_members_seen hne hnext hmembers),
      bind_read _ (punct_seen '\x7d' "\x7d" rfl rfl hnext), pure_apply, hgetD]

end Members

/-! ### Declarations -/

section Declarations

variable {qualifiers : List String} {typePieces : List Piece} {type : Node}

/-- The first word of a qualifier. A qualifier that functions do not have is one more reason for
not being a function. -/
theorem word_qualifier_seen {q : String} {pieces : List Piece}
    (hq : declarationQualifier.accepts q = true) (hneat : Neat pieces) :
    ∃ w rest, word (seen (token q :: pieces)) = .read w rest ∧ startsDeclaration w = true ∧
      startsType w = false ∧
      (w ∈ Word.precisionQualifiers → w = q ∧ rest = seen pieces) := by
  rcases accepts_declarationQualifier.mp hq with ⟨entries, hne, hentries, rfl⟩ | hmem
  · have hchars : (layoutText entries).toList =
        "layout".toList ++ '(' :: ((String.intercalate "," entries).toList ++ [')']) := by
      simp [layoutText]
    obtain ⟨e, he⟩ := exists_getLast (hchars.trans rfl)
    have hword : word ("layout".toList ++ ('(' :: ((String.intercalate "," entries).toList ++ [')']) ++
        write (some e) pieces)) = .read "layout" (skipBlank _) :=
      word_read (by decide) (stops_cons.mpr rfl)
    rw [← List.append_assoc, ← hchars, ← seen_solid (hchars.trans rfl) he rfl] at hword
    exact ⟨"layout", _, hword, by decide, by decide, fun h => absurd h (by decide)⟩
  · refine ⟨q, _, word_seen (isWord_of_mem_qualifiers hmem) hneat, ?_, ?_, fun _ => ⟨rfl, rfl⟩⟩
    · have hall : ∀ w ∈ Word.storageQualifiers ++ Word.precisionQualifiers,
          startsDeclaration w = true := by decide
      exact hall q hmem
    · have hall : ∀ w ∈ Word.storageQualifiers ++ Word.precisionQualifiers,
          startsType w = false := by decide
      exact hall q hmem

/-- After its qualifiers and its type, a declaration does not go on as a function does. -/
theorem function_refuses {rest : List Piece}
    (hqualifiers : ∀ q ∈ qualifiers, declarationQualifier.accepts q = true)
    (htype : TypeRead typePieces type) (hrest : Neat rest)
    (hname : ∀ name tail, identifier (seen rest) = .read name tail → tail.head? ≠ some '(') :
    Statement.function.Refuses (seen (Sketch.tokens qualifiers ++ (typePieces ++ rest))) := by
  have hneat : Neat (typePieces ++ rest) := neat_append.mpr ⟨htype.neat, hrest⟩
  -- the qualifiers that a function can have are read, and at the next one no type starts
  have hmany : ∃ found after, many precisionQualifier
      (seen (Sketch.tokens qualifiers ++ (typePieces ++ rest))) = .read found after ∧
        ((typeSpecifier declaration).Refuses after ∨ after = seen (typePieces ++ rest)) := by
    induction qualifiers with
    | nil =>
      obtain ⟨w, tail, hword, hw⟩ := htype.first rest hrest
      exact ⟨[], _, many_refuses takes_precisionQualifier (precisionQualifier_refuses hword hw),
        Or.inr rfl⟩
    | cons q qualifiers ih =>
      obtain ⟨hq, hothers⟩ := List.forall_mem_cons.mp hqualifiers
      obtain ⟨found, after, hread, hafter⟩ := ih hothers
      have hpieces : Neat (Sketch.tokens qualifiers ++ (typePieces ++ rest)) :=
        neat_append.mpr ⟨neat_tokens qualifiers, hneat⟩
      obtain ⟨w, tail, hword, -, htypeWord, hsame⟩ := word_qualifier_seen hq hpieces
      show ∃ found after, many precisionQualifier (seen (token q ::
        (Sketch.tokens qualifiers ++ (typePieces ++ rest)))) = .read found after ∧ _
      by_cases hmem : w ∈ Word.precisionQualifiers
      · obtain ⟨rfl, rfl⟩ := hsame hmem
        have hfirst : precisionQualifier (seen (token w ::
            (Sketch.tokens qualifiers ++ (typePieces ++ rest)))) = .read w _ :=
          guarded_read hword (by simpa using hmem)
        exact ⟨w :: found, after, many_read takes_precisionQualifier hfirst hread, hafter⟩
      · have hrefuses : precisionQualifier.Refuses (seen (token q ::
            (Sketch.tokens qualifiers ++ (typePieces ++ rest)))) :=
          guarded_refuses hword (by simpa using hmem)
        exact ⟨[], _, many_refuses takes_precisionQualifier hrefuses,
          Or.inl (typeSpecifier_refuses hword htypeWord)⟩
  obtain ⟨found, after, hread, hafter⟩ := hmany
  refine Refuses.bind_of_read hread ?_
  rcases hafter with hrefuses | rfl
  · exact hrefuses.bind _
  · refine Refuses.bind_of_read (htype.read rest hrest) ?_
    rcases read_or_refuses identifier (seen rest) with ⟨name, tail, hidentifier⟩ | hrefuses
    · refine Refuses.bind_of_read hidentifier (Refuses.bind (Refuses.bind ?_ _) _)
      exact punct_refuses (hname name tail hidentifier)
    · exact hrefuses.bind _

variable {separator : String} {names : List Node}

/-- The pieces of a list of declarators. -/
def namePieces (separator : String) (names : List Node) : List Piece :=
  Sketch.commaSeparated (names.map fun node => (node.sketch separator).declarator)

theorem neat_namePieces (hnames : ∀ node ∈ names, Printable.Declarator node) :
    Neat (namePieces separator names) :=
  neat_commaSeparated fun node hmem => neat_declarator (hnames node hmem)

theorem declarators_seen (hnames : ∀ node ∈ names, Printable.Declarator node)
    (hne : names = [] → type.tag = .structDefinition) :
    Reads (declarators type) (namePieces separator names) (names.map Node.bare) 1 := by
  intro next hnext
  have hneat : ∀ node ∈ names, Neat (node.sketch separator).declarator :=
    fun node hmem => neat_declarator (hnames node hmem)
  have hread : ∀ node ∈ names,
      Reads Declaration.declarator (node.sketch separator).declarator node.bare 2 :=
    fun node hmem => reads_declarator (hnames node hmem)
  have hstop : Declaration.declarator.Refuses (seen next) :=
    Refuses.bind ((word_refuses (hnext.apart.imp fun c => isPart_of_isStart)).guarded _) _
  unfold declarators
  split
  · exact separated_seen takes_declarator hneat hread (fun _ => hstop) hnext
  · rename_i htag
    exact separated1_seen takes_declarator hneat hread (fun hnil => htag (hne hnil)) hnext

/-- No opening parenthesis comes after the first declared name. -/
theorem head_after_name (hnames : ∀ node ∈ names, Printable.Declarator node) {next : List Piece}
    (hnext : Follows 1 next) {name : String} {tail : List Char}
    (hread : identifier (seen (namePieces separator names ++ next)) = .read name tail) :
    tail.head? ≠ some '(' := by
  cases names with
  | nil =>
    have hrefuses : identifier.Refuses (seen next) :=
      (word_refuses (hnext.apart.imp fun c => isPart_of_isStart)).guarded _
    exact absurd hrefuses (not_refuses_of_read hread)
  | cons first others =>
    obtain ⟨hfirst, hothers⟩ := List.forall_mem_cons.mp hnames
    have hneatOthers : ∀ node ∈ others, Neat (node.sketch separator).declarator :=
      fun node hmem => neat_declarator (hothers node hmem)
    have hrest := follows_flatMap_comma hneatOthers hnext
    obtain ⟨hname, hsize, hinitializer⟩ := hfirst
    rename_i mark first size initializer
    have hneat : Neat (Sketch.arraySize (size.map (Node.sketch separator)) ++
        (initializerPieces separator initializer ++
          (others.flatMap (fun node => token "," :: (node.sketch separator).declarator) ++
            next))) := by
      simp only [neat_append]
      exact ⟨neat_arraySize hsize, neat_initializer hinitializer, neat_append.mp hrest.neat⟩
    rw [namePieces, List.map_cons, Sketch.commaSeparated_cons, List.flatMap_map,
      Sketch.declarator_eq, List.append_assoc, List.append_assoc, List.cons_append,
      identifier_seen hname hneat] at hread
    injection hread with _ htail
    rw [← htail]
    exact head_arraySize hrest

theorem startsDeclaration_of_startsType {w : String} (h : startsType w = true) :
    startsDeclaration w = true := by
  simp only [startsType, startsDeclaration, Bool.or_eq_true] at h ⊢
  rcases h with h | h
  · exact Or.inl (Or.inr h)
  · exact Or.inr h

theorem declarationFirst_qualifiers {rest : List Piece}
    (hqualifiers : ∀ q ∈ qualifiers, declarationQualifier.accepts q = true)
    (htype : TypeRead typePieces type) (hrest : Neat rest) :
    DeclarationFirst (Sketch.tokens qualifiers ++ (typePieces ++ rest)) := by
  intro next hnext
  cases qualifiers with
  | nil =>
    obtain ⟨w, tail, hword, hw⟩ := htype.first (rest ++ next) (neat_append.mpr ⟨hrest, hnext⟩)
    refine ⟨w, tail, ?_, startsDeclaration_of_startsType hw⟩
    show word (seen (typePieces ++ rest ++ next)) = _
    rw [List.append_assoc, hword]
  | cons q qualifiers =>
    have hneat : Neat (Sketch.tokens qualifiers ++ (typePieces ++ rest) ++ next) := by
      simp only [neat_append]
      exact ⟨⟨neat_tokens _, htype.neat, hrest⟩, hnext⟩
    obtain ⟨w, tail, hword, hw, -⟩ := word_qualifier_seen (hqualifiers q (by simp)) hneat
    exact ⟨w, tail, hword, hw⟩

theorem declarationRead
    (hqualifiers : ∀ q ∈ qualifiers, declarationQualifier.accepts q = true)
    (htype : TypeRead typePieces type) (hnames : ∀ node ∈ names, Printable.Declarator node)
    (hne : names = [] → type.tag = .structDefinition) :
    DeclarationRead (Sketch.tokens qualifiers ++ (typePieces ++ namePieces separator names))
      (.declaration qualifiers type (names.map Node.bare)) where
  neat := by
    simp only [neat_append]
    exact ⟨neat_tokens qualifiers, htype.neat, neat_namePieces hnames⟩
  first := declarationFirst_qualifiers hqualifiers htype (neat_namePieces hnames)
  read next hnext := by
    have hrest : Neat (namePieces separator names ++ next) :=
      neat_append.mpr ⟨neat_namePieces hnames, hnext.neat⟩
    obtain ⟨w, tail, hword, hw⟩ := htype.first _ hrest
    have hmany := many_words_seen takes_declarationQualifier
      (neat_append.mpr ⟨htype.neat, hrest⟩)
      (fun q hq pieces hpieces => declarationQualifier_seen (hqualifiers q hq) hpieces)
      (declarationQualifier_refuses hword hw)
    rw [List.append_assoc, List.append_assoc, body, bind_read _ hmany,
      bind_read _ (htype.read _ hrest), bind_read _ (declarators_seen hnames hne next hnext),
      pure_apply]
  notFunction next hnext := by
    rw [List.append_assoc, List.append_assoc]
    refine function_refuses hqualifiers htype ?_ fun name tail hread =>
      head_after_name hnames hnext hread
    exact neat_append.mpr ⟨neat_namePieces hnames, hnext.neat⟩

end Declarations

/-! ### Printed declarations -/

section Printed

variable {separator : String} {mark typeMark : Mark} {qualifiers : List String} {name : String}
  {type : Node} {names members : List Node}

theorem Sketch.declaration_eq :
    ((Node.mk mark .declaration "" qualifiers [.one type, .many names]).sketch
      separator).declaration =
        Sketch.tokens qualifiers ++ ((type.sketch separator).specifier ++
          namePieces separator names) ++ [token ";"] := by
  rw [Node.sketch_eq, namePieces]
  show Sketch.tokens qualifiers ++ (type.sketch separator).specifier ++
    Sketch.commaSeparated ((names.map (Node.sketch separator)).map Sketch.declarator) ++
      [token ";"] = _
  rw [List.map_map]
  simp only [List.append_assoc]
  rfl

theorem Sketch.specifier_name :
    ((Node.mk typeMark .typeName name [] []).sketch separator).specifier = [token name] := by
  rw [Node.sketch_eq]
  rfl

theorem Sketch.specifier_struct :
    ((Node.mk typeMark .structDefinition name [] [.many members]).sketch separator).specifier =
      token "struct" :: token name :: token "\x7b" ::
        members.flatMap (fun member => (member.sketch separator).declaration) ++
          [token "\x7d"] := by
  rw [Node.sketch_eq]
  show token "struct" :: token name :: token "\x7b" ::
    ((members.map (Node.sketch separator)).map Sketch.declaration).flatten ++ [token "\x7d"] = _
  rw [List.map_map, ← List.flatMap_def]
  rfl

/-- A printable declaration is read back. -/
theorem declarationPieces (separator : String) {node : Node} (h : Printable.Declaration node) :
    DeclarationPieces (node.sketch separator).declaration node.bare := by
  induction h with
  | @plain mark typeMark qualifiers name names hqualifiers hname hnames hne =>
    refine ⟨_, Sketch.declaration_eq, ?_⟩
    rw [Sketch.specifier_name, Node.bare_mk]
    exact declarationRead hqualifiers (typeRead_name hname) hnames fun hnil => absurd hnil hne
  | @struct mark typeMark qualifiers name members names hqualifiers hname hmembers hne hnames ih =>
    refine ⟨_, Sketch.declaration_eq, ?_⟩
    have hbare : (Node.mk mark .declaration "" qualifiers
        [.one ⟨typeMark, .structDefinition, name, [], [.many members]⟩, .many names]).bare =
          .declaration qualifiers (.structDefinition name (members.map Node.bare))
            (names.map Node.bare) := by
      simp only [Node.bare_mk, List.map_cons, List.map_nil, Slot.map]
      rfl
    rw [Sketch.specifier_struct, hbare]
    exact declarationRead hqualifiers (typeRead_struct hname hne ih) hnames fun _ => rfl

theorem typeRead (separator : String) {node : Node} (h : Printable.TypeSpecifier node) :
    TypeRead (node.sketch separator).specifier node.bare := by
  cases h with
  | name hname =>
    rw [Sketch.specifier_name, Node.bare_mk]
    exact typeRead_name hname
  | @struct mark name members hname hmembers hne =>
    rw [Sketch.specifier_struct, Node.bare_mk]
    exact typeRead_struct hname hne fun member hmem =>
      declarationPieces separator (hmembers member hmem)

end Printed

end GlslShrink
