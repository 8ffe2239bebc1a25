import GlslShrink.Proofs.Printing.Rules
import GlslShrink.Proofs.RoundTrip.Legible

/-!
Printed expressions are read back. The main statement is `legible_operation`: the pieces of a
printable expression, without parentheses around it, stand for the expression and bind as tightly
as its level. It is proved by induction over the rules of the grammar; `legible_expression` then
adds the parentheses that a position asks for.
-/

set_option autoImplicit false

namespace GlslShrink

open Reader Token Expression Piece

/-! ### Lists with commas -/

theorem Sketch.commaSeparated_cons (first : List Piece) (others : List (List Piece)) :
    commaSeparated (first :: others) = first ++ others.flatMap (fun part => token "," :: part) := by
  unfold commaSeparated
  induction others generalizing first with
  | nil => simp
  | cons second others ih =>
    rw [List.intersperse_cons_cons, List.flatten_cons, List.flatten_cons, ih]
    simp

section Lists

variable {α : Type} {reader : Reader α} {items : List Node} {part : Node → List Piece}
  {value : Node → α} {next : List Piece}

theorem neat_flatMap_comma (hneat : ∀ item ∈ items, Neat (part item)) :
    Neat (items.flatMap (fun item => token "," :: part item)) := by
  intro piece hpiece
  obtain ⟨item, hitem, hmem⟩ := List.mem_flatMap.mp hpiece
  exact neat_token.mpr (hneat item hitem) piece hmem

theorem neat_commaSeparated (hneat : ∀ item ∈ items, Neat (part item)) :
    Neat (Sketch.commaSeparated (items.map part)) := by
  cases items with
  | nil => exact neat_nil
  | cons first others =>
    obtain ⟨hfirst, hothers⟩ := List.forall_mem_cons.mp hneat
    rw [List.map_cons, Sketch.commaSeparated_cons, List.flatMap_map]
    exact neat_append.mpr ⟨hfirst, neat_flatMap_comma hothers⟩

theorem follows_flatMap_comma (hneat : ∀ item ∈ items, Neat (part item)) (hnext : Follows 1 next) :
    Follows 2 (items.flatMap (fun item => token "," :: part item) ++ next) := by
  cases items with
  | nil => exact hnext.mono (by omega)
  | cons first others =>
    have hall := neat_append.mpr ⟨neat_flatMap_comma hneat, hnext.neat⟩
    exact follows_comma (neat_token.mp hall)

theorem many_comma_seen (htakes : reader.Takes 1) (hneat : ∀ item ∈ items, Neat (part item))
    (hread : ∀ item ∈ items, Reads reader (part item) (value item) 2) (hnext : Follows 1 next) :
    many (do let _ ← punct ','; reader)
        (seen (items.flatMap (fun item => token "," :: part item) ++ next)) =
      .read (items.map value) (seen next) := by
  have htake : (do let _ ← punct ','; reader).Takes 1 :=
    (takes_punct ',').bind (fun _ => htakes) (by omega)
  induction items with
  | nil =>
    refine many_refuses htake (Refuses.bind (punct_refuses_of_continuation fun tail => ?_) _)
    show continuation (seen next) ≠ 1
    have := hnext.low
    omega
  | cons item items ih =>
    obtain ⟨hitem, hitems⟩ := List.forall_mem_cons.mp hneat
    obtain ⟨hreadItem, hreadItems⟩ := List.forall_mem_cons.mp hread
    have hrest := follows_flatMap_comma hitems hnext
    refine many_read htake ?_ (ih hitems hreadItems)
    rw [List.flatMap_cons, List.append_assoc, List.cons_append,
      bind_read _ (punct_seen ',' "," rfl rfl (neat_append.mpr ⟨hitem, hrest.neat⟩))]
    exact hreadItem _ hrest

theorem separated1_seen (htakes : reader.Takes 1) (hneat : ∀ item ∈ items, Neat (part item))
    (hread : ∀ item ∈ items, Reads reader (part item) (value item) 2) (hne : items ≠ [])
    (hnext : Follows 1 next) :
    separated1 (punct ',') reader (seen (Sketch.commaSeparated (items.map part) ++ next)) =
      .read (items.map value) (seen next) := by
  obtain ⟨first, others, rfl⟩ := List.exists_cons_of_ne_nil hne
  obtain ⟨-, hneatOthers⟩ := List.forall_mem_cons.mp hneat
  obtain ⟨hreadFirst, hreadOthers⟩ := List.forall_mem_cons.mp hread
  have hrest := follows_flatMap_comma hneatOthers hnext
  rw [List.map_cons, Sketch.commaSeparated_cons, List.flatMap_map, List.append_assoc, separated1,
    bind_read _ (hreadFirst _ hrest),
    bind_read _ (many_comma_seen htakes hneatOthers hreadOthers hnext), pure_apply, List.map_cons]

theorem separated_seen (htakes : reader.Takes 1) (hneat : ∀ item ∈ items, Neat (part item))
    (hread : ∀ item ∈ items, Reads reader (part item) (value item) 2)
    (hempty : items = [] → reader.Refuses (seen next)) (hnext : Follows 1 next) :
    separated (punct ',') reader (seen (Sketch.commaSeparated (items.map part) ++ next)) =
      .read (items.map value) (seen next) := by
  cases items with
  | nil => exact branch_refuses _ _ (hempty rfl)
  | cons first others =>
    obtain ⟨-, hneatOthers⟩ := List.forall_mem_cons.mp hneat
    obtain ⟨hreadFirst, hreadOthers⟩ := List.forall_mem_cons.mp hread
    have hrest := follows_flatMap_comma hneatOthers hnext
    rw [List.map_cons, Sketch.commaSeparated_cons, List.flatMap_map, List.append_assoc, separated,
      branch_read _ _ (hreadFirst _ hrest),
      bind_read _ (many_comma_seen htakes hneatOthers hreadOthers hnext), pure_apply,
      List.map_cons]

end Lists

/-! ### Leaves and trailers -/

section Forms

variable {pieces : List Piece} {node : Node}

/-- The pieces start as an expression without an operator in front does. -/
def PrimaryFirst (pieces : List Piece) : Prop :=
  ∃ text c chars rest, pieces = token text :: rest ∧ text.toList = c :: chars ∧
    (Word.isPart c || ['.', '('].contains c) = true

theorem PrimaryFirst.operandFirst (h : PrimaryFirst pieces) : OperandFirst pieces := by
  obtain ⟨text, c, chars, rest, rfl, hchars, hc⟩ := h
  refine ⟨text, c, chars, rest, rfl, hchars, ?_⟩
  rw [Bool.or_eq_true] at hc
  rcases hc with hc | hc
  · simp [startsOperand, hc]
  · have hall : ∀ c ∈ ['.', '('], startsOperand c = true :=
      forall_mem_of_all (by decide)
    exact hall c (by simpa using hc)

theorem PrimaryFirst.stops (h : PrimaryFirst pieces) (next : List Piece) :
    Stops isOperatorStart (seen (pieces ++ next)) := by
  have hsolid := h.operandFirst
  obtain ⟨text, c, chars, rest, rfl, hchars, hc⟩ := h
  have hstart : isOperatorStart c = false := by
    have hall : ∀ d ∈ ['<', '>', '+', '-', '=', '!', '&', '|', '^', '*', '/', '%', '~'],
        (Word.isPart d || ['.', '('].contains d) = false := forall_mem_of_all (by decide)
    refine Bool.eq_false_iff.mpr fun hstart => ?_
    rw [hall c (by simpa [isOperatorStart] using hstart)] at hc
    cases hc
  obtain ⟨text', c', chars', rest', heq, hchars', hc'⟩ := hsolid
  cases heq
  cases hchars.symm.trans hchars'
  intro d hd
  rw [List.cons_append, head?_seen hchars (isSolid_of_startsOperand hc')] at hd
  cases hd
  exact hstart

theorem legible_of_primary (hneat : Neat pieces) (hfirst : PrimaryFirst pieces)
    (hread : Reads (primary expression) pieces node (trailBound node)) : Legible pieces node 17 where
  neat := hneat
  first := hfirst.operandFirst
  read := (readsAt_trailed (by omega)).mpr
    ⟨hfirst.stops, fun next hnext => bind_read _ (hread next hnext)⟩

/-- A trailer after a legible base gives a legible expression. -/
theorem legible_trail {base larger : Node} {trail : List Piece} (hbase : Legible pieces base 16)
    (htrail : Neat trail)
    (hfollows : ∀ next, Neat next → Follows (trailBound base) (trail ++ next))
    (hstep : ∀ next, Neat next →
      trailer expression base (seen (trail ++ next)) = .read (some larger) (seen next)) :
    Legible (pieces ++ trail) larger 16 where
  neat := neat_append.mpr ⟨hbase.neat, htrail⟩
  first := hbase.first.append trail
  read := by
    obtain ⟨hplain, hopens⟩ := (readsAt_trailed (Nat.le_refl 16)).mp hbase.read
    refine (readsAt_trailed (Nat.le_refl 16)).mpr ⟨fun next => ?_, fun next hnext => ?_⟩
    · rw [List.append_assoc]
      exact hplain _
    · rw [List.append_assoc, hopens _ (hfollows next hnext.neat),
        extend_step trailer_steps (hstep next hnext.neat)]

theorem primaryFirst_of_isWord {text : String} {rest : List Piece} (h : Word.isWord text = true) :
    PrimaryFirst (token text :: rest) := by
  obtain ⟨c, chars, hchars, hc, -⟩ := exists_of_isWord h
  exact ⟨text, c, chars, rest, rfl, hchars, by simp [isPart_of_isStart hc]⟩

theorem isWord_of_isName {text : String} (h : Word.isName text = true) :
    Word.isWord text = true := by
  rw [Word.isName, Bool.and_eq_true] at h
  exact h.1

theorem legible_identifier {name : String} (h : Word.isName name = true) :
    Legible [token name] (.identifier name) 17 := by
  refine legible_of_primary (by simp [neat_nil]) (primaryFirst_of_isWord (isWord_of_isName h)) ?_
  intro next hnext
  refine primary_identifier (identifier_seen h hnext.neat) fun hhead => ?_
  obtain ⟨tail, htail⟩ := List.head?_eq_some_iff.mp hhead
  have hlow : continuation (seen next) < 18 := hnext.low
  rw [htail] at hlow
  exact absurd hlow (Nat.lt_irrefl 18)

theorem legible_boolLiteral {text : String} (h : text = "true" ∨ text = "false") :
    Legible [token text] (Node.leaf .boolLiteral text) 17 := by
  have hword : Word.isWord text = true := by rcases h with rfl | rfl <;> decide
  refine legible_of_primary (by simp [neat_nil]) (primaryFirst_of_isWord hword) ?_
  intro next hnext
  have hread := word_seen hword hnext.neat
  obtain ⟨hfloat, hint⟩ := numbers_refuse (stops_of_word hread).2
  refine orElse_refuses (hfloat.bind _) (orElse_refuses (hint.bind _) ?_)
  rcases h with rfl | rfl
  · exact orElse_read _ (bind_read _ (keyword_seen (by decide) hnext.neat))
  · refine orElse_refuses ((keyword_refuses_of_word hread (by decide)).bind _)
      (orElse_read _ (bind_read _ (keyword_seen (by decide) hnext.neat)))

theorem legible_intLiteral {text : String} (h : intLiteral.accepts text = true) :
    Legible [token text] (.intLiteral text) 17 := by
  have htext := accepts_intLiteral.mp h
  obtain ⟨c, chars, hchars, hc⟩ := htext.head
  have hfirst : PrimaryFirst [token text] :=
    ⟨text, c, chars, [], rfl, hchars, by simp [isPart_of_isDigit hc]⟩
  refine legible_of_primary (by simp [neat_nil]) hfirst fun next hnext => ?_
  have hlow : continuation (seen next) < 17 := hnext.low
  have hstops : Stops continuesInt (seen next) := by
    intro c hc
    obtain ⟨tail, htail⟩ := List.head?_eq_some_iff.mp hc
    have hpart := hnext.apart c hc
    have hpoint : c ≠ '.' := by
      rintro rfl
      rw [htail] at hlow
      exact absurd hlow (Nat.lt_irrefl 17)
    simp [continuesInt, hpart, hpoint]
  obtain ⟨hread, hfloat⟩ := intLiteral_seen htext hnext.neat hstops
  exact orElse_refuses (hfloat.bind _) (orElse_read _ (bind_read _ hread))

theorem legible_floatLiteral {text : String} (h : floatLiteral.accepts text = true) :
    Legible [token text] (.floatLiteral text) 17 := by
  have htext := accepts_floatLiteral.mp h
  obtain ⟨c, chars, hchars, hc⟩ := htext.head
  have hfirst : PrimaryFirst [token text] := by
    refine ⟨text, c, chars, [], rfl, hchars, ?_⟩
    rw [Bool.or_eq_true, beq_iff_eq] at hc
    rcases hc with hc | rfl
    · simp [isPart_of_isDigit hc]
    · rfl
  refine legible_of_primary (by simp [neat_nil]) hfirst fun next hnext => ?_
  exact orElse_read _ (bind_read _ (floatLiteral_seen htext hnext.neat hnext.apart))

theorem legible_index {base position : Node} {inside : List Piece}
    (hbase : Legible pieces base 16) (hposition : Legible inside position 1) :
    Legible (pieces ++ token "[" :: inside ++ [token "]"]) (.index base position) 16 := by
  have hinside : ∀ next, Neat next → Neat (inside ++ token "]" :: next) := by
    intro next hnext
    simp [hposition.neat, hnext]
  rw [List.append_assoc, List.cons_append]
  refine legible_trail hbase (neat_token.mpr (hinside [] neat_nil)) ?_ ?_
  · intro next hnext
    rw [List.cons_append, List.append_assoc]
    exact (follows_bracket (hinside next hnext)).mono (seventeen_le_trailBound base)
  · intro next hnext
    have hread := hposition.reads_withComma _ (follows_closer ']' "]" rfl rfl hnext)
    rw [List.cons_append, List.append_assoc, List.singleton_append, trailer,
      branch_read _ _ (punct_seen '[' "[" rfl rfl (hinside next hnext)), bind_read _ hread,
      bind_read _ (punct_seen ']' "]" rfl rfl hnext), pure_apply]

theorem legible_fieldSelection {base : Node} {field : String} (hbase : Legible pieces base 16)
    (hint : base.tag ≠ .intLiteral) (hfield : Word.isWord field = true) :
    Legible (pieces ++ [token ".", token field]) (.fieldSelection base field) 16 := by
  refine legible_trail hbase (by simp [neat_nil]) ?_ ?_
  · intro next hnext
    rw [trailBound, if_neg hint]
    exact follows_point (neat_token.mpr hnext)
  · intro next hnext
    have hneat : Neat (token field :: next) := neat_token.mpr hnext
    have hbracket : (punct '[').Refuses (seen (token "." :: token field :: next)) :=
      punct_refuses (by rw [head?_seen rfl rfl]; decide)
    show trailer expression base (seen (token "." :: token field :: next)) = _
    rw [trailer, branch_refuses _ _ hbracket, branch_read _ _ (punct_seen '.' "." rfl rfl hneat),
      bind_read _ (word_seen hfield hnext), pure_apply]

theorem legible_postfixUpdate {base : Node} {op : String} (hbase : Legible pieces base 16)
    (hop : op = "++" ∨ op = "--") :
    Legible (pieces ++ [token op]) (.postfixUpdate op base) 16 := by
  refine legible_trail hbase (by simp [neat_nil]) ?_ ?_
  · intro next hnext
    exact (follows_update hop hnext).mono (seventeen_le_trailBound base)
  · intro next hnext
    have hhead : ∀ c ∈ ['[', '.'], (punct c).Refuses (seen (token op :: next)) := by
      intro c hc
      refine punct_refuses ?_
      have hall : ∀ c ∈ ['[', '.'], c ≠ '+' ∧ c ≠ '-' := forall_mem_of_all (by decide)
      have hmark := hall c hc
      rcases hop with rfl | rfl
      · rw [head?_seen rfl rfl, ne_eq, Option.some.injEq]
        exact fun hplus => hmark.1 hplus.symm
      · rw [head?_seen rfl rfl, ne_eq, Option.some.injEq]
        exact fun hminus => hmark.2 hminus.symm
    show trailer expression base (seen (token op :: next)) = _
    rw [trailer, branch_refuses _ _ (hhead '[' (by simp)), branch_refuses _ _ (hhead '.' (by simp)),
      branch_read _ _ (update_seen hop hnext), pure_apply]

/-! ### Calls -/

/-- The word `void` for an empty list stands in front of the closing parenthesis. -/
theorem emptyByVoid_inv {text rest : List Char} {nodes : List Node}
    (h : emptyByVoid text = .read nodes rest) :
    ∃ tail, identifier text = .read "void" (')' :: tail) := by
  obtain ⟨w, middle, hkeyword, h⟩ := bind_inv h
  obtain ⟨hword, hw⟩ := guarded_inv hkeyword
  rw [beq_iff_eq] at hw
  subst hw
  obtain ⟨_, middle', hahead, -⟩ := bind_inv h
  have hclose : middle.head? = some ')' := by
    rcases read_or_refuses (punct ')') middle with ⟨_, rest', hread⟩ | hrefuses
    · exact punct_inv hread
    · exact absurd hrefuses.ahead (not_refuses_of_read hahead)
  obtain ⟨tail, rfl⟩ := List.head?_eq_some_iff.mp hclose
  exact ⟨tail, guarded_read hword (by decide)⟩

/-- A list in parentheses is read item by item, unless it is `void` alone: that would be read as
an empty list. -/
theorem listOrVoid_seen {reader : Reader Node} {items : List Node} {part : Node → List Piece}
    {voidNode : Node} {next : List Piece} (htakes : reader.Takes 1)
    (hneat : ∀ item ∈ items, Neat (part item))
    (hread : ∀ item ∈ items, Reads reader (part item) item.bare 2)
    (hempty : reader.Refuses (seen (token ")" :: next)))
    (hname : ∀ text tail, identifier text = .read "void" (')' :: tail) →
      reader text = .read voidNode (')' :: tail))
    (hvoid : ∀ item, items = [item] → item.bare ≠ voidNode) (hnext : Neat next) :
    (emptyByVoid <|> separated (punct ',') reader)
        (seen (Sketch.commaSeparated (items.map part) ++ token ")" :: next)) =
      .read (items.map Node.bare) (seen (token ")" :: next)) := by
  have hclose : Follows 1 (token ")" :: next) := follows_closer ')' ")" rfl rfl hnext
  refine orElse_refuses ?_ (separated_seen htakes hneat hread (fun _ => hempty) hclose)
  rcases read_or_refuses emptyByVoid
    (seen (Sketch.commaSeparated (items.map part) ++ token ")" :: next))
    with ⟨nodes, rest, hfound⟩ | hrefuses
  · -- then the first item is read as `void`, and the list ends after it
    obtain ⟨tail, hidentifier⟩ := emptyByVoid_inv hfound
    have hvoidRead := hname _ tail hidentifier
    cases items with
    | nil => exact absurd hempty (not_refuses_of_read hvoidRead)
    | cons item others =>
      obtain ⟨-, hneatOthers⟩ := List.forall_mem_cons.mp hneat
      have hfirst := hread item (by simp) _ (follows_flatMap_comma hneatOthers hclose)
      rw [List.map_cons, Sketch.commaSeparated_cons, List.flatMap_map, List.append_assoc,
        hfirst] at hvoidRead
      injection hvoidRead with hitem htail
      cases others with
      | nil => exact absurd hitem (hvoid item rfl)
      | cons second others =>
        have hhead := congrArg List.head? htail
        rw [List.flatMap_cons, List.append_assoc, List.cons_append, head?_seen rfl rfl] at hhead
        cases hhead
  · exact hrefuses

variable {arguments : List Node} {part : Node → List Piece} {next : List Piece}

theorem arguments_seen (h : ∀ argument ∈ arguments, Legible (part argument) argument.bare 2)
    (hvoid : Node.isVoidArgument arguments = false) (hnext : Neat next) :
    (emptyByVoid <|> separated (punct ',') (expression .withoutComma))
        (seen (Sketch.commaSeparated (arguments.map part) ++ token ")" :: next)) =
      .read (arguments.map Node.bare) (seen (token ")" :: next)) := by
  have hempty : (expression .withoutComma).Refuses (seen (token ")" :: next)) :=
    expression_refuses .withoutComma (stops_seen rfl rfl rfl)
  refine listOrVoid_seen (takes_expression .withoutComma) (fun a ha => (h a ha).neat)
    (fun a ha => (h a ha).reads_withoutComma) hempty (fun text tail hname =>
      expression_identifier hname (continuation_closer rfl tail) .withoutComma) ?_ hnext
  rintro argument rfl hargument
  have htag : argument.tag = .identifier := by
    rw [← Node.bare_tag argument, hargument]
    rfl
  have hvalue : argument.value = "void" := by
    rw [← Node.bare_value argument, hargument]
    rfl
  simp [Node.isVoidArgument, htag, hvalue] at hvoid

theorem legible_call {name : String} (hname : Word.isName name = true)
    (h : ∀ argument ∈ arguments, Legible (part argument) argument.bare 2)
    (hvoid : Node.isVoidArgument arguments = false) :
    Legible (token name :: token "(" :: Sketch.commaSeparated (arguments.map part) ++ [token ")"])
      (.call name (arguments.map Node.bare)) 17 := by
  have hword := isWord_of_isName hname
  have hlist : Neat (Sketch.commaSeparated (arguments.map part)) :=
    neat_commaSeparated fun a ha => (h a ha).neat
  refine legible_of_primary (by simp [hlist, neat_nil]) (primaryFirst_of_isWord hword) ?_
  intro next hnext
  have hinside : Neat (Sketch.commaSeparated (arguments.map part) ++ token ")" :: next) := by
    simp [hlist, hnext.neat]
  have hopen : Neat (token "(" :: (Sketch.commaSeparated (arguments.map part) ++
      token ")" :: next)) := neat_token.mpr hinside
  rw [List.cons_append, List.cons_append, List.cons_append, List.cons_append, List.append_assoc,
    List.singleton_append]
  have hidentifier := identifier_seen hname hopen
  have hfirst := word_seen hword hopen
  obtain ⟨hfloat, hint⟩ := numbers_refuse (stops_of_word hfirst).2
  have hne : ∀ k ∈ ["true", "false"], name ≠ k := by
    rintro k hk rfl
    have hall : ∀ k ∈ ["true", "false"], Word.isName k = false := by decide
    rw [hall name hk] at hname
    cases hname
  refine orElse_refuses (hfloat.bind _) (orElse_refuses (hint.bind _) (orElse_refuses ?_
    (orElse_refuses ?_ (orElse_read _ ?_))))
  · exact (keyword_refuses_of_word hfirst (hne "true" (by simp))).bind _
  · exact (keyword_refuses_of_word hfirst (hne "false" (by simp))).bind _
  · rw [call, bind_read _ hidentifier, bind_read _ (punct_seen '(' "(" rfl rfl hinside),
      bind_read _ (arguments_seen h hvoid hnext.neat),
      bind_read _ (punct_seen ')' ")" rfl rfl hnext.neat), pure_apply]

/-! ### Operators -/

theorem legible_unary {op : String} {operand : Node} (hop : Precedence.isLeading op = true)
    (h : Legible pieces operand 15) : Legible (token op :: pieces) (.unary op operand) 15 := by
  have hlist : ∀ op ∈ ["++", "--", "+", "-", "!", "~"], op.toList ∈ operators ∧
      op.toList.head?.any startsOperand = true := by decide
  obtain ⟨hmem, hany⟩ := hlist op (by simpa [Precedence.isLeading] using hop)
  obtain ⟨c, hc, hstart⟩ := (Option.any_eq_true _ _).mp hany
  obtain ⟨chars, hchars⟩ := List.head?_eq_some_iff.mp hc
  refine ⟨neat_token.mpr h.neat, ⟨op, c, chars, pieces, rfl, hchars, hstart⟩, ?_⟩
  refine readsAt_unary.mpr fun next hnext => ?_
  have hoperator := operator_seen hmem (h.first.append next)
    (neat_append.mpr ⟨h.neat, hnext.neat⟩)
  rw [unary_eq, List.cons_append, branch_read _ _ (guarded_read hoperator hop),
    bind_read _ (h.reads_unary next hnext), pure_apply]

/-- Binary operators are the comma and operators of the levels in between. -/
theorem binary_operator {op : String} {level : Nat} (h : Precedence.ofBinary? op = some level) :
    (op = "," ∧ level = 1) ∨ (4 ≤ level ∧ level ≤ 14 ∧ op.toList ∈ operators) := by
  unfold Precedence.ofBinary? at h
  split at h
  case h_1 =>
    cases h
    exact Or.inl ⟨rfl, rfl⟩
  all_goals
    cases h
  all_goals exact Or.inr ⟨by decide, by decide, by decide⟩

theorem legible_comma {left right : Node} {behind : List Piece} (hleft : Legible pieces left 1)
    (hright : Legible behind right 2) :
    Legible (pieces ++ token "," :: behind) (.binary "," left right) 1 := by
  refine ⟨by simp [hleft.neat, hright.neat], hleft.first.append _, ?_⟩
  refine (readsAt_comma (Nat.le_refl 1)).mpr fun next hnext => ?_
  have hneat : Neat (behind ++ next) := neat_append.mpr ⟨hright.neat, hnext.neat⟩
  have hstep : listed expression left (seen (token "," :: (behind ++ next))) =
      .read (some (.binary "," left right)) (seen next) := by
    rw [listed, branch_read _ _ (punct_seen ',' "," rfl rfl hneat),
      bind_read _ (readsAt_assignment.mp hright.read next hnext), pure_apply]
  rw [List.append_assoc, List.cons_append, hleft.opens_comma _ (follows_comma hneat),
    extend_step listed_steps hstep]

/-- An operator takes up its left operand, and stops after its right one. -/
theorem legible_binary {op : String} {level : Nat} {left right : Node} {behind : List Piece}
    (hop : op.toList ∈ operators) (hlevel : Precedence.ofBinary? op = some level)
    (hleast : 4 ≤ level) (hmost : level ≤ 14) (hleft : Legible pieces left level)
    (hright : Legible behind right (level + 1)) :
    Legible (pieces ++ token op :: behind) (.binary op left right) level := by
  refine ⟨by simp [hleft.neat, hright.neat], hleft.first.append _, ?_⟩
  refine (readsAt_binary hleast hmost).mpr fun least hle next hnext => ?_
  have hneat : Neat (behind ++ next) := neat_append.mpr ⟨hright.neat, hnext.neat⟩
  have hfirst : OperandFirst (behind ++ next) := hright.first.append next
  have hfollows : Follows (level + 1) (token op :: (behind ++ next)) := by
    refine follows_operator hop hfirst hneat ?_
    rw [operatorLevel_of_binary hlevel]
    omega
  have hoperator : operatorFrom least (seen (token op :: (behind ++ next))) =
      .read (op, level) (seen (behind ++ next)) := by
    rw [operatorFrom, bind_read _ (operator_seen hop hfirst hneat)]
    simp only [hlevel, if_pos hle]
    rfl
  have hoperand : binary expression (level + 1) (seen (behind ++ next)) =
      .read right (seen next) := by
    have hopens := hright.opens_binary (by omega) (by omega) (Nat.le_refl _) next
      (hnext.mono (by omega))
    rw [hopens, extend_stop (joined_steps _) (joined_stops right hnext.low)]
  have hstep : joined (binary expression) least left (seen (token op :: (behind ++ next))) =
      .read (some (.binary op left right)) (seen next) := by
    rw [joined, branch_read _ _ hoperator]
    exact bind_read _ hoperand
  rw [List.append_assoc, List.cons_append,
    hleft.opens_binary hleast (by omega) hle _ hfollows,
    extend_step (joined_steps least) hstep]

theorem legible_ternary {test ifTrue ifFalse : Node} {inside behind : List Piece}
    (htest : Legible pieces test 4) (htrue : Legible inside ifTrue 1)
    (hfalse : Legible behind ifFalse 3) :
    Legible (pieces ++ token "?" :: inside ++ token ":" :: behind)
      (.ternary test ifTrue ifFalse) 3 := by
  rw [List.append_assoc, List.cons_append]
  refine ⟨by simp [htest.neat, htrue.neat, hfalse.neat], htest.first.append _, ?_⟩
  refine readsAt_conditional.mpr fun next hnext => ?_
  have hbehind : Neat (behind ++ next) := neat_append.mpr ⟨hfalse.neat, hnext.neat⟩
  have hinside : Neat (inside ++ token ":" :: (behind ++ next)) := by
    simp [htrue.neat, hbehind]
  have hfollows := follows_question hinside
  have hcondition : binary expression Precedence.logicalOr
      (seen (pieces ++ token "?" :: (inside ++ token ":" :: (behind ++ next)))) =
        .read test (seen (token "?" :: (inside ++ token ":" :: (behind ++ next)))) := by
    have hopens := htest.opens_binary (Nat.le_refl 4) (by omega) (Nat.le_refl 4) _
      (hfollows.mono (by omega))
    have hstops : continuation
        (seen (token "?" :: (inside ++ token ":" :: (behind ++ next)))) < Precedence.logicalOr :=
      hfollows.low
    exact hopens.trans (extend_stop (joined_steps _) (joined_stops test hstops))
  have htrueRead := htrue.reads_withComma _ (follows_closer ':' ":" rfl rfl hbehind)
  have hfalseRead := (hfalse.mono (by omega)).reads_withoutComma next hnext
  have happend : pieces ++ token "?" :: (inside ++ token ":" :: behind) ++ next =
      pieces ++ token "?" :: (inside ++ token ":" :: (behind ++ next)) := by simp
  rw [happend, conditional, bind_read _ hcondition,
    branch_read _ _ (punct_seen '?' "?" rfl rfl hinside), bind_read _ htrueRead,
    bind_read _ (punct_seen ':' ":" rfl rfl hbehind), bind_read _ hfalseRead, pure_apply]

theorem legible_assignment {op : String} {target value : Node} {behind : List Piece}
    (hop : Precedence.isAssignment op = true) (htarget : Legible pieces target 15)
    (hlevel : Precedence.unary ≤ Precedence.ofNode target) (hvalue : Legible behind value 2) :
    Legible (pieces ++ token op :: behind) (.assignment op target value) 2 := by
  have hlist : ∀ op ∈ ["=", "+=", "-=", "*=", "/=", "%=", "<<=", ">>=", "&=", "|=", "^="],
      op.toList ∈ operators := by decide
  have hmem : op.toList ∈ operators := hlist op (by simpa [Precedence.isAssignment] using hop)
  refine ⟨by simp [htarget.neat, hvalue.neat], htarget.first.append _, ?_⟩
  refine readsAt_assignment.mpr fun next hnext => ?_
  have hneat : Neat (behind ++ next) := neat_append.mpr ⟨hvalue.neat, hnext.neat⟩
  have hfirst : OperandFirst (behind ++ next) := hvalue.first.append next
  have hfollows : Follows 3 (token op :: (behind ++ next)) := by
    refine follows_operator hmem hfirst hneat ?_
    rw [operatorLevel_of_assignment hop]
    decide
  have hoperator : assignmentTo target (seen (token op :: (behind ++ next))) =
      .read op (seen (behind ++ next)) := by
    rw [assignmentTo, if_pos hlevel]
    exact guarded_read (operator_seen hmem hfirst hneat) hop
  rw [List.append_assoc, List.cons_append, assignment,
    bind_read _ ((htarget.mono (by omega)).reads_target _ hfollows), branch_read _ _ hoperator,
    bind_read _ (hvalue.reads_withoutComma next hnext), pure_apply]

end Forms

/-! ### Printed expressions -/

theorem Node.sketch_eq (separator : String) (node : Node) :
    node.sketch separator =
      Sketch.ofNode separator node (node.slots.map (Slot.map (Node.sketch separator))) :=
  Node.fold_eq _ node

theorem Sketch.level_eq (separator : String) (node : Node) :
    (node.sketch separator).level = Precedence.ofNode node := by
  rw [Node.sketch_eq]
  rfl

/-- Parentheses are put around an expression that binds looser than its position asks. -/
theorem legible_of_operation {separator : String} {node : Node}
    (h : Legible (node.sketch separator).operation node.bare (Precedence.ofNode node))
    (hpos : 1 ≤ Precedence.ofNode node) (least : Nat) (hleast : least ≤ 17) :
    Legible ((node.sketch separator).expression least) node.bare least := by
  unfold Sketch.expression
  rw [Sketch.level_eq]
  split
  · exact (h.mono hpos).parenthesize.mono hleast
  · exact h.mono (by omega)

theorem one_le_ofNode {node : Node} (h : Printable.Expression node) :
    1 ≤ Precedence.ofNode node := by
  cases h with
  | @binary mark op level left right hoperator =>
    have hlevel : Precedence.ofNode ⟨mark, .binary, op, [], [.one left, .one right]⟩ = level := by
      show (Precedence.ofBinary? op).getD Precedence.comma = level
      rw [hoperator]
      rfl
    rw [hlevel]
    rcases binary_operator hoperator with ⟨-, rfl⟩ | ⟨hleast, -, -⟩
    · exact Nat.le_refl 1
    · omega
  | _ => exact Nat.le_of_ble_eq_true rfl

/-- The pieces of an expression stand for it and bind as tightly as its level. -/
theorem legible_operation (separator : String) {node : Node} (h : Printable.Expression node) :
    Legible (node.sketch separator).operation node.bare (Precedence.ofNode node) := by
  induction h with
  | @identifier mark name hname =>
    rw [Node.sketch_eq, Node.bare_mk]
    exact legible_identifier hname
  | @intLiteral mark text htext =>
    rw [Node.sketch_eq, Node.bare_mk]
    exact legible_intLiteral htext
  | @floatLiteral mark text htext =>
    rw [Node.sketch_eq, Node.bare_mk]
    exact legible_floatLiteral htext
  | @boolLiteral mark text htext =>
    rw [Node.sketch_eq, Node.bare_mk]
    exact legible_boolLiteral htext
  | @call mark name arguments hname harguments hvoid ih =>
    have hlegible : ∀ argument ∈ arguments,
        Legible ((argument.sketch separator).expression 2) argument.bare 2 := fun argument hmem =>
      legible_of_operation (ih argument hmem) (one_le_ofNode (harguments argument hmem)) 2
        (by omega)
    have hpieces : ((Node.mk mark .call name [] [.many arguments]).sketch separator).operation =
        token name :: token "(" :: Sketch.commaSeparated
          (arguments.map fun argument => (argument.sketch separator).expression 2) ++
            [token ")"] := by
      rw [Node.sketch_eq]
      show token name :: token "(" :: Sketch.commaSeparated
        ((arguments.map (Node.sketch separator)).map (·.expression Precedence.assignment)) ++
          [token ")"] = _
      rw [List.map_map]
      rfl
    rw [hpieces, Node.bare_mk]
    exact (legible_call hname hlegible hvoid).mono (Nat.le_succ 16)
  | @fieldSelection mark field base hfield hbase hint ih =>
    have hlegible := legible_of_operation ih (one_le_ofNode hbase) 16 (by omega)
    rw [Node.sketch_eq, Node.bare_mk]
    exact legible_fieldSelection hlegible (by rw [Node.bare_tag]; exact hint) hfield
  | @index mark base position hbase hposition ihbase ihposition =>
    have hlegible := legible_of_operation ihbase (one_le_ofNode hbase) 16 (by omega)
    have hinside := legible_of_operation ihposition (one_le_ofNode hposition) 1 (by omega)
    rw [Node.sketch_eq, Node.bare_mk]
    exact legible_index hlegible hinside
  | @postfixUpdate mark op base hop hbase ih =>
    have hlegible := legible_of_operation ih (one_le_ofNode hbase) 16 (by omega)
    rw [Node.sketch_eq, Node.bare_mk]
    exact legible_postfixUpdate hlegible hop
  | @unary mark op operand hop hoperand ih =>
    have hlegible := legible_of_operation ih (one_le_ofNode hoperand) 15 (by omega)
    rw [Node.sketch_eq, Node.bare_mk]
    exact legible_unary hop hlegible
  | @binary mark op level left right hop hleft hright ihleft ihright =>
    have hlevel : Precedence.ofNode ⟨mark, .binary, op, [], [.one left, .one right]⟩ = level := by
      show (Precedence.ofBinary? op).getD Precedence.comma = level
      rw [hop]
      rfl
    have hpieces : ((Node.mk mark .binary op [] [.one left, .one right]).sketch
        separator).operation = (left.sketch separator).expression level ++
          token op :: (right.sketch separator).expression (level + 1) := by
      rw [Node.sketch_eq, ← hlevel]
      rfl
    rw [hpieces, hlevel, Node.bare_mk]
    rcases binary_operator hop with ⟨rfl, rfl⟩ | ⟨hleast, hmost, hmem⟩
    · exact legible_comma (legible_of_operation ihleft (one_le_ofNode hleft) 1 (by omega))
        (legible_of_operation ihright (one_le_ofNode hright) 2 (by omega))
    · exact legible_binary hmem hop hleast hmost
        (legible_of_operation ihleft (one_le_ofNode hleft) level (by omega))
        (legible_of_operation ihright (one_le_ofNode hright) (level + 1) (by omega))
  | @ternary mark test ifTrue ifFalse htest htrue hfalse ihtest ihtrue ihfalse =>
    have htestLegible := legible_of_operation ihtest (one_le_ofNode htest) 4 (by omega)
    have htrueLegible := legible_of_operation ihtrue (one_le_ofNode htrue) 1 (by omega)
    have hfalseLegible := legible_of_operation ihfalse (one_le_ofNode hfalse) 3 (by omega)
    rw [Node.sketch_eq, Node.bare_mk]
    exact legible_ternary htestLegible htrueLegible hfalseLegible
  | @assignment mark op target value hop htarget hlevel hvalue ihtarget ihvalue =>
    have hpieces : ((Node.mk mark .assignment op [] [.one target, .one value]).sketch
        separator).operation = (target.sketch separator).operation ++
          token op :: (value.sketch separator).expression 2 := by
      have htight : ¬ Precedence.ofNode target < 3 := by
        have : 15 ≤ Precedence.ofNode target := hlevel
        omega
      have hplain : (target.sketch separator).expression 3 =
          (target.sketch separator).operation := by
        rw [Sketch.expression, Sketch.level_eq, if_neg htight]
      rw [Node.sketch_eq, ← hplain]
      rfl
    have hvalueLegible := legible_of_operation ihvalue (one_le_ofNode hvalue) 2 (by omega)
    rw [hpieces, Node.bare_mk]
    refine legible_assignment hop (ihtarget.mono hlevel) ?_ hvalueLegible
    rw [Node.ofNode_bare]
    exact hlevel

/-- Where an expression is printed in a position of some level, it is read back there. -/
theorem legible_expression (separator : String) {node : Node} (h : Printable.Expression node)
    (least : Nat) (hleast : least ≤ 17) :
    Legible ((node.sketch separator).expression least) node.bare least :=
  legible_of_operation (legible_operation separator h) (one_le_ofNode h) least hleast

end GlslShrink
