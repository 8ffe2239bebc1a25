import GlslShrink.Printing.Render
import GlslShrink.Proofs.Printing.Written
import GlslShrink.Proofs.Reading.Levels
import GlslShrink.Proofs.Tree.Shape

/-!
Pieces that are read back as a given expression. What the reader of a level makes of them depends
on what follows: `Reads` and `Opens` quantify over everything that can follow below a bound, and
`Legible` collects, for pieces that bind as tightly as some level, what the readers of all looser
levels do. Parentheses make pieces of any level as tight as can be.
-/

set_option autoImplicit false

namespace GlslShrink

open Reader Token Expression Piece

/-- The pieces can follow an expression, and an expression only goes on with them below the bound. -/
structure Follows (bound : Nat) (pieces : List Piece) : Prop where
  neat : Neat pieces
  apart : Stops Word.isPart (seen pieces)
  low : continuation (seen pieces) < bound

theorem Follows.mono {bound more : Nat} {pieces : List Piece} (h : Follows bound pieces)
    (hmore : bound ≤ more) : Follows more pieces :=
  ⟨h.neat, h.apart, Nat.lt_of_lt_of_le h.low hmore⟩

/-- Whatever follows below the bound, the reader reads the pieces as the value. -/
def Reads {α : Type} (reader : Reader α) (pieces : List Piece) (value : α) (bound : Nat) : Prop :=
  ∀ next, Follows bound next → reader (seen (pieces ++ next)) = .read value (seen next)

/-- Whatever follows below the bound, the reader reads the pieces as the node and then tries to let
it grow. -/
def Opens (reader : Reader Node) (step : Node → Reader (Option Node)) (pieces : List Piece)
    (node : Node) (bound : Nat) : Prop :=
  ∀ next, Follows bound next → reader (seen (pieces ++ next)) = extend step node (seen next)

/-! ### What can follow -/

section Follows

variable {bound : Nat} {pieces : List Piece} {text : String} {c : Char}

theorem follows_token {chars : List Char} (hchars : text.toList = c :: chars)
    (hc : isSolid c = true) (hpart : Word.isPart c = false)
    (hlow : ∀ tail, continuation (c :: tail) < bound) (h : Neat pieces) :
    Follows bound (token text :: pieces) := by
  have hhead : (seen (token text :: pieces)).head? = some c := head?_seen hchars hc
  obtain ⟨tail, htail⟩ := List.head?_eq_some_iff.mp hhead
  refine ⟨neat_token.mpr h, ?_, ?_⟩
  · rw [htail]
    exact stops_cons.mpr hpart
  · rw [htail]
    exact hlow tail

/-- The marks that end an expression. -/
def isCloser (c : Char) : Bool :=
  [')', ']', ';', ':'].contains c

theorem mem_closers (hc : isCloser c = true) : c ∈ [')', ']', ';', ':'] := by
  simpa [isCloser] using hc

theorem continuation_closer (hc : isCloser c = true) (tail : List Char) :
    continuation (c :: tail) = 0 := by
  have hall : ∀ c ∈ [')', ']', ';', ':'], isOperatorStart c = false ∧
      c ∉ ['(', '.', '[', '?', ','] := forall_mem_of_all (by decide)
  obtain ⟨hstart, hmark⟩ := hall c (mem_closers hc)
  have hrefuses : operator.Refuses (c :: tail) := operator_refuses (stops_cons.mpr hstart)
  obtain ⟨place, hplace⟩ := hrefuses
  unfold continuation
  split
  all_goals simp_all

/-- Nothing goes on with a closing mark. -/
theorem follows_closer (c : Char) (text : String) (hchars : text.toList = [c])
    (hc : isCloser c = true) (h : Neat pieces) : Follows 1 (token text :: pieces) := by
  have hall : ∀ c ∈ [')', ']', ';', ':'], isSolid c = true ∧ Word.isPart c = false :=
    forall_mem_of_all (by decide)
  obtain ⟨hsolid, hpart⟩ := hall c (mem_closers hc)
  refine follows_token hchars hsolid hpart (fun tail => ?_) h
  rw [continuation_closer hc]
  exact Nat.one_pos

theorem follows_comma (h : Neat pieces) : Follows 2 (token "," :: pieces) :=
  follows_token rfl rfl rfl (fun _ => Nat.lt_succ_self 1) h

theorem follows_question (h : Neat pieces) : Follows 4 (token "?" :: pieces) :=
  follows_token rfl rfl rfl (fun _ => Nat.lt_succ_self 3) h

theorem follows_bracket (h : Neat pieces) : Follows 17 (token "[" :: pieces) :=
  follows_token rfl rfl rfl (fun _ => Nat.lt_succ_self 16) h

theorem follows_point (h : Neat pieces) : Follows 18 (token "." :: pieces) :=
  follows_token rfl rfl rfl (fun _ => Nat.lt_succ_self 17) h

theorem stops_of_operator {chars rest : List Char} {op : String}
    (h : operator chars = .read op rest) : Stops Word.isPart chars := by
  intro c hc
  obtain ⟨tail, rfl⟩ := List.head?_eq_some_iff.mp hc
  by_cases hstart : isOperatorStart c = true
  · have hall : ∀ d ∈ ['<', '>', '+', '-', '=', '!', '&', '|', '^', '*', '/', '%', '~'],
        Word.isPart d = false := forall_mem_of_all (by decide)
    exact hall c (by simpa [isOperatorStart] using hstart)
  · have hstops : Stops isOperatorStart (c :: tail) := stops_cons.mpr (by simpa using hstart)
    exact absurd (operator_refuses hstops) (not_refuses_of_read h)

/-- An expression goes on with an operator at the operator's level. -/
theorem follows_operator (hop : text.toList ∈ operators) (hfirst : OperandFirst pieces)
    (h : Neat pieces) (hlevel : operatorLevel text < bound) :
    Follows bound (token text :: pieces) := by
  have hread := operator_seen hop hfirst h
  refine ⟨neat_token.mpr h, stops_of_operator hread, ?_⟩
  rw [continuation_of_operator hread]
  exact hlevel

theorem follows_update (hop : text = "++" ∨ text = "--") (h : Neat pieces) :
    Follows 17 (token text :: pieces) := by
  have hread := (operator_of_update (update_seen hop h)).1
  refine ⟨neat_token.mpr h, stops_of_operator hread, ?_⟩
  rw [continuation_of_operator hread, operatorLevel, if_pos hop]
  omega

end Follows

/-! ### Pieces of a level -/

/-- The bound on what can follow a node that may still be indexed or selected from: a point after
an integer literal would become part of the number. -/
def trailBound (node : Node) : Nat :=
  if node.tag = .intLiteral then 17 else 18

theorem seventeen_le_trailBound (node : Node) : 17 ≤ trailBound node := by
  unfold trailBound
  split <;> omega

/-- What the reader of a level makes of pieces that bind as tightly as this level. -/
def ReadsAt (level : Nat) (pieces : List Piece) (node : Node) : Prop :=
  if 16 ≤ level then
    (∀ next, Stops isOperatorStart (seen (pieces ++ next))) ∧
      Opens (trailed expression) (trailer expression) pieces node (trailBound node)
  else if level = 15 then Reads (unary expression) pieces node 16
  else if 4 ≤ level then
    ∀ least, least ≤ level →
      Opens (binary expression least) (joined (binary expression) least) pieces node (level + 1)
  else if level = 3 then Reads (conditional expression) pieces node 2
  else if level = 2 then Reads (assignment expression) pieces node 2
  else Opens (commaList expression) (listed expression) pieces node 2

section ReadsAt

variable {pieces : List Piece} {node : Node} {level : Nat}

theorem readsAt_trailed (hlevel : 16 ≤ level) :
    ReadsAt level pieces node ↔ (∀ next, Stops isOperatorStart (seen (pieces ++ next))) ∧
      Opens (trailed expression) (trailer expression) pieces node (trailBound node) := by
  rw [ReadsAt, if_pos hlevel]

theorem readsAt_unary : ReadsAt 15 pieces node ↔ Reads (unary expression) pieces node 16 :=
  Iff.rfl

theorem readsAt_binary (hleast : 4 ≤ level) (hmost : level ≤ 14) :
    ReadsAt level pieces node ↔ ∀ least, least ≤ level →
      Opens (binary expression least) (joined (binary expression) least) pieces node
        (level + 1) := by
  rw [ReadsAt, if_neg (by omega), if_neg (by omega), if_pos hleast]

theorem readsAt_conditional : ReadsAt 3 pieces node ↔ Reads (conditional expression) pieces node 2 :=
  Iff.rfl

theorem readsAt_assignment : ReadsAt 2 pieces node ↔ Reads (assignment expression) pieces node 2 :=
  Iff.rfl

theorem readsAt_comma (hlevel : level ≤ 1) :
    ReadsAt level pieces node ↔
      Opens (commaList expression) (listed expression) pieces node 2 := by
  rw [ReadsAt, if_neg (by omega), if_neg (by omega), if_neg (by omega), if_neg (by omega),
    if_neg (by omega)]

/-- From the binary levels on, a conditional can follow as the target of an assignment. -/
theorem reads_conditional_of_binary
    (h : Opens (binary expression Precedence.logicalOr)
      (joined (binary expression) Precedence.logicalOr) pieces node 5) :
    Reads (conditional expression) pieces node 3 :=
  fun next hnext => conditional_of_binary (h next (hnext.mono (by omega))) hnext.low

/-- Pieces that bind tightly are read by the next looser reader as well. -/
theorem ReadsAt.step (h : ReadsAt (level + 1) pieces node) : ReadsAt level pieces node := by
  by_cases h16 : 16 ≤ level
  · exact (readsAt_trailed h16).mpr ((readsAt_trailed (by omega)).mp h)
  by_cases h15 : level = 15
  · subst h15
    obtain ⟨hplain, htrailed⟩ := (readsAt_trailed (by omega)).mp h
    refine readsAt_unary.mpr fun next hnext => ?_
    have hbound : 16 ≤ trailBound node := by have := seventeen_le_trailBound node; omega
    exact unary_of_trailed (hplain next) (htrailed next (hnext.mono hbound)) hnext.low
  by_cases h4 : 4 ≤ level
  · refine (readsAt_binary h4 (by omega)).mpr fun least hleast next hnext => ?_
    by_cases h14 : level = 14
    · subst h14
      exact binary_of_unary least (readsAt_unary.mp h next (hnext.mono (by omega)))
    · exact (readsAt_binary (by omega) (by omega)).mp h least (by omega) next
        (hnext.mono (by omega))
  by_cases h3 : level = 3
  · subst h3
    have hbinary := (readsAt_binary (by omega) (by omega)).mp h Precedence.logicalOr (Nat.le_refl 4)
    exact fun next hnext => reads_conditional_of_binary hbinary next (hnext.mono (by omega))
  by_cases h2 : level = 2
  · subst h2
    exact fun next hnext => assignment_of_conditional (readsAt_conditional.mp h next hnext) hnext.low
  · refine (readsAt_comma (by omega)).mpr fun next hnext => ?_
    by_cases h1 : level = 1
    · subst h1
      exact commaList_of_assignment (readsAt_assignment.mp h next hnext)
    · exact (readsAt_comma (by omega)).mp h next hnext

theorem ReadsAt.mono {less : Nat} (h : ReadsAt level pieces node) (hless : less ≤ level) :
    ReadsAt less pieces node := by
  induction level with
  | zero =>
    obtain rfl : less = 0 := by omega
    exact h
  | succ level ih =>
    by_cases heq : less = level + 1
    · exact heq ▸ h
    · exact ih h.step (by omega)

end ReadsAt

/-- The pieces stand for the expression and bind as tightly as the level. -/
structure Legible (pieces : List Piece) (node : Node) (level : Nat) : Prop where
  neat : Neat pieces
  first : OperandFirst pieces
  read : ReadsAt level pieces node

namespace Legible

variable {pieces : List Piece} {node : Node} {level : Nat}

theorem mono (h : Legible pieces node level) {less : Nat} (hless : less ≤ level) :
    Legible pieces node less :=
  ⟨h.neat, h.first, h.read.mono hless⟩

theorem reads_unary (h : Legible pieces node 15) : Reads (unary expression) pieces node 16 :=
  readsAt_unary.mp h.read

theorem opens_binary (h : Legible pieces node level) (hleast : 4 ≤ level) (hmost : level ≤ 15)
    {least : Nat} (hle : least ≤ level) :
    Opens (binary expression least) (joined (binary expression) least) pieces node (level + 1) := by
  by_cases h15 : level = 15
  · subst h15
    exact fun next hnext => binary_of_unary least (h.reads_unary next hnext)
  · exact (readsAt_binary hleast (by omega)).mp h.read least hle

theorem reads_target (h : Legible pieces node 4) : Reads (conditional expression) pieces node 3 :=
  reads_conditional_of_binary (h.opens_binary (Nat.le_refl 4) (by omega) (Nat.le_refl 4))

theorem reads_conditional (h : Legible pieces node 3) :
    Reads (conditional expression) pieces node 2 :=
  readsAt_conditional.mp h.read

theorem reads_withoutComma (h : Legible pieces node 2) :
    Reads (expression .withoutComma) pieces node 2 := by
  rw [expression_withoutComma]
  exact readsAt_assignment.mp h.read

theorem opens_comma (h : Legible pieces node 1) :
    Opens (commaList expression) (listed expression) pieces node 2 :=
  (readsAt_comma (Nat.le_refl 1)).mp h.read

theorem reads_withComma (h : Legible pieces node 1) :
    Reads (expression .withComma) pieces node 1 :=
  fun next hnext => expression_of_commaList (h.opens_comma next (hnext.mono (by omega))) hnext.low

/-- Nothing but the opening parenthesis itself starts like one. -/
theorem primary_paren {text : List Char} (h : text.head? = some '(') {rest : List Char} {x : Node}
    (hread : parenthesized expression text = .read x rest) :
    primary expression text = .read x rest := by
  obtain ⟨tail, rfl⟩ := List.head?_eq_some_iff.mp h
  have hnumber : Stops (fun c => c.isDigit || c == '.') ('(' :: tail) := stops_cons.mpr rfl
  obtain ⟨hfloat, hint⟩ := numbers_refuse hnumber
  have hword : word.Refuses ('(' :: tail) := word_refuses (stops_cons.mpr rfl)
  have hidentifier : identifier.Refuses ('(' :: tail) := hword.guarded _
  exact orElse_refuses (hfloat.bind _) (orElse_refuses (hint.bind _)
    (orElse_refuses ((hword.guarded _).bind _) (orElse_refuses ((hword.guarded _).bind _)
      (orElse_refuses (hidentifier.bind _) (orElse_refuses (hidentifier.bind _) hread)))))

theorem reads_parenthesized (h : Legible pieces node 1) {next : List Piece} (hnext : Neat next) :
    parenthesized expression (seen (token "(" :: pieces ++ token ")" :: next)) =
      .read node (seen next) := by
  have hneat : Neat (pieces ++ token ")" :: next) := by simp [h.neat, hnext]
  have hinner := h.reads_withComma _ (follows_closer ')' ")" rfl rfl hnext)
  rw [List.cons_append, parenthesized, bind_read _ (punct_seen '(' "(" rfl rfl hneat),
    bind_read _ hinner, bind_read _ (punct_seen ')' ")" rfl rfl hnext), pure_apply]

/-- In parentheses every expression binds as tightly as can be. -/
theorem parenthesize (h : Legible pieces node 1) :
    Legible (token "(" :: pieces ++ [token ")"]) node 17 where
  neat := by simpa [neat_nil] using h.neat
  first := ⟨"(", '(', [], _, rfl, rfl, rfl⟩
  read := by
    have hhead : ∀ next, (seen (token "(" :: pieces ++ [token ")"] ++ next)).head? = some '(' :=
      fun next => head?_seen rfl rfl
    refine (readsAt_trailed (by omega)).mpr ⟨fun next => ?_, fun next hnext => ?_⟩
    · obtain ⟨tail, htail⟩ := List.head?_eq_some_iff.mp (hhead next)
      rw [htail]
      exact stops_cons.mpr rfl
    · have hread := reads_parenthesized h hnext.neat
      refine bind_read _ (primary_paren (hhead next) ?_)
      rw [List.append_assoc]
      exact hread

end Legible

end GlslShrink
