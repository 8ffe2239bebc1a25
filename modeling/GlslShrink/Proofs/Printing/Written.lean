import GlslShrink.Printing.Piece
import GlslShrink.Proofs.Reading.Literals

/-!
Reading back what was written piece by piece. `seen pieces` is what a reader finds of the pieces
when the blanks in front have been skipped; it does not depend on what was written before, since
the space or the line feed that a piece may get is a blank. So reading the token of a piece off
`seen (piece :: pieces)` leaves `seen pieces`, and no later proof has to look at characters.
-/

set_option autoImplicit false

namespace GlslShrink.Piece

open Reader Token

/-- Whether the piece leaves the tokens around it alone: text that is written as it is must be
blank. -/
def isNeat : Piece → Bool
  | verbatim text => text.toList.all Text.isBlank
  | _ => true

def Neat (pieces : List Piece) : Prop :=
  ∀ piece ∈ pieces, piece.isNeat = true

/-- What a reader finds of the pieces: their text without the blanks in front. -/
def seen (pieces : List Piece) : List Char :=
  skipBlank (write none pieces)

variable {pieces : List Piece} {text : String}

theorem neat_nil : Neat [] := by
  simp [Neat]

@[simp]
theorem neat_token : Neat (token text :: pieces) ↔ Neat pieces := by
  simp [Neat, isNeat]

@[simp]
theorem neat_append {others : List Piece} : Neat (pieces ++ others) ↔ Neat pieces ∧ Neat others := by
  simp [Neat, or_imp, forall_and]

theorem neat_directive : Neat (directive text :: pieces) ↔ Neat pieces := by
  simp [Neat, isNeat]

theorem neat_verbatim : Neat (verbatim text :: pieces) ↔
    (∀ c ∈ text.toList, Text.isBlank c = true) ∧ Neat pieces := by
  simp [Neat, isNeat]

theorem isBlank_of_mem_gap {last : Option Char} {next c : Char} (h : c ∈ gap last next) :
    Text.isBlank c = true := by
  unfold gap at h
  split at h
  · split at h
    · rw [List.mem_singleton] at h
      subst h
      rfl
    · cases h
  · cases h

theorem isBlank_of_mem_lineBreak {last : Option Char} {c : Char} (h : c ∈ lineBreak last) :
    Text.isBlank c = true := by
  unfold lineBreak at h
  split at h
  · cases h
  · split at h
    · cases h
    · rw [List.mem_singleton] at h
      subst h
      rfl

theorem write_token {c e : Char} {chars : List Char} (last : Option Char)
    (hchars : text.toList = c :: chars) (hlast : text.toList.getLast? = some e) :
    write last (token text :: pieces) = gap last c ++ (text.toList ++ write (some e) pieces) := by
  have hadded : (token text).chars last = gap last c ++ text.toList := by
    simp only [Piece.chars, hchars]
  have hend : lastAfter last (gap last c ++ text.toList) = some e := by
    simp [lastAfter, List.getLast?_append, hlast]
  rw [write, hadded, hend, List.append_assoc]

theorem write_empty (last : Option Char) (h : text.toList = []) :
    write last (token text :: pieces) = write last pieces := by
  have hadded : (token text).chars last = [] := by
    simp only [Piece.chars, h]
  rw [write, hadded]
  rfl

theorem write_directive (last : Option Char) :
    write last (directive text :: pieces) =
      lineBreak last ++ (text.toList ++ '\n' :: write (some '\n') pieces) := by
  have hend : lastAfter last (lineBreak last ++ text.toList ++ ['\n']) = some '\n' := by
    simp [lastAfter]
  rw [write, Piece.chars, hend]
  simp

/-- What is written after a text depends on its last character only by blanks in front. -/
theorem skipBlank_write (h : Neat pieces) (last : Option Char) :
    skipBlank (write last pieces) = seen pieces := by
  unfold seen
  induction pieces generalizing last with
  | nil => rfl
  | cons piece pieces ih =>
    cases piece with
    | token text =>
      cases hchars : text.toList with
      | nil =>
        rw [write_empty last hchars, write_empty none hchars]
        exact ih (neat_token.mp h) last
      | cons c chars =>
        obtain ⟨e, he⟩ : ∃ e, text.toList.getLast? = some e :=
          ⟨_, List.getLast?_eq_some_getLast (by simp [hchars])⟩
        rw [write_token last hchars he, write_token none hchars he,
          skipBlank_blanks _ fun d hd => isBlank_of_mem_gap hd,
          skipBlank_blanks _ fun d hd => isBlank_of_mem_gap hd]
    | verbatim text =>
      obtain ⟨hblank, hneat⟩ := neat_verbatim.mp h
      rw [write, write, Piece.chars, Piece.chars, skipBlank_blanks _ hblank,
        skipBlank_blanks _ hblank, ih hneat, ih hneat (lastAfter none _)]
    | directive text =>
      rw [write_directive, write_directive,
        skipBlank_blanks _ fun d hd => isBlank_of_mem_lineBreak hd,
        skipBlank_blanks _ fun d hd => isBlank_of_mem_lineBreak hd]

theorem seen_nil : seen [] = [] :=
  skipBlank_nil

theorem seen_verbatim (h : Neat (verbatim text :: pieces)) :
    seen (verbatim text :: pieces) = seen pieces := by
  obtain ⟨hblank, hneat⟩ := neat_verbatim.mp h
  rw [seen, write, Piece.chars, skipBlank_blanks _ hblank, skipBlank_write hneat]

theorem seen_token {c e : Char} {chars : List Char} (hchars : text.toList = c :: chars)
    (hlast : text.toList.getLast? = some e) :
    seen (token text :: pieces) = skipBlank (text.toList ++ write (some e) pieces) := by
  rw [seen, write_token none hchars hlast, skipBlank_blanks _ fun d hd => isBlank_of_mem_gap hd]

theorem seen_solid {c e : Char} {chars : List Char} (hchars : text.toList = c :: chars)
    (hlast : text.toList.getLast? = some e) (hc : isSolid c = true) :
    seen (token text :: pieces) = text.toList ++ write (some e) pieces := by
  rw [seen_token hchars hlast, hchars, List.cons_append, skipBlank_solid _ hc]

/-- An empty token is not seen. -/
theorem seen_empty (h : Neat pieces) : seen (token "" :: pieces) = seen pieces := by
  rw [seen, write_empty none rfl, skipBlank_write h]

theorem exists_getLast {c : Char} {chars : List Char} (h : text.toList = c :: chars) :
    ∃ e, text.toList.getLast? = some e :=
  ⟨_, List.getLast?_eq_some_getLast (by simp [h])⟩

theorem head?_seen {c : Char} {chars : List Char} (hchars : text.toList = c :: chars)
    (hc : isSolid c = true) : (seen (token text :: pieces)).head? = some c := by
  obtain ⟨e, he⟩ := exists_getLast hchars
  rw [seen_solid hchars he hc, hchars]
  rfl

theorem stops_seen {test : Char → Bool} {c : Char} {chars : List Char}
    (hchars : text.toList = c :: chars) (hc : isSolid c = true) (htest : test c = false) :
    Stops test (seen (token text :: pieces)) := by
  intro d hd
  rw [head?_seen hchars hc] at hd
  cases hd
  exact htest

/-! ### Words -/

/-- A word never goes on with the piece after it. -/
theorem stops_write {e : Char} (h : Neat pieces) (he : Word.isPart e = true) :
    Stops Word.isPart (write (some e) pieces) := by
  induction pieces with
  | nil => exact stops_nil _
  | cons piece pieces ih =>
    cases piece with
    | token text =>
      cases hchars : text.toList with
      | nil =>
        rw [write_empty _ hchars]
        exact ih (neat_token.mp h)
      | cons c chars =>
        obtain ⟨d, hd⟩ := exists_getLast hchars
        rw [write_token _ hchars hd, hchars]
        by_cases hc : Word.isPart c = true
        · have hgap : gap (some e) c = [' '] := by simp [gap, clash, he, hc]
          rw [hgap]
          exact stops_cons.mpr rfl
        · have hnot : Word.isPart c = false := by simpa using hc
          by_cases hclash : clash e c = true
          · have hgap : gap (some e) c = [' '] := by simp [gap, hclash]
            rw [hgap]
            exact stops_cons.mpr rfl
          · have hgap : gap (some e) c = [] := by simp [gap, hclash]
            rw [hgap]
            exact stops_cons.mpr hnot
    | verbatim text =>
      obtain ⟨hblank, hneat⟩ := neat_verbatim.mp h
      rw [write, Piece.chars]
      cases hchars : text.toList with
      | nil => exact ih hneat
      | cons c chars =>
        have hc : Text.isBlank c = true := hblank c (by simp [hchars])
        refine stops_cons.mpr ?_
        simp only [Text.isBlank, Bool.or_eq_true, beq_iff_eq] at hc
        rcases hc with ((rfl | rfl) | rfl) | rfl <;> rfl
    | directive text =>
      have hbreak : lineBreak (some e) = ['\n'] := by
        have hne : e ≠ '\n' := by
          rintro rfl
          cases he
        simp [lineBreak, hne]
      rw [write_directive, hbreak]
      exact stops_cons.mpr rfl

theorem word_seen (hword : Word.isWord text = true) (h : Neat pieces) :
    word (seen (token text :: pieces)) = .read text (seen pieces) := by
  obtain ⟨c, chars, hchars, hc, hparts⟩ := exists_of_isWord hword
  obtain ⟨e, he⟩ := exists_getLast hchars
  have hpart : Word.isPart e = true := by
    have hmem : e ∈ text.toList := List.mem_of_getLast? he
    rw [hchars, List.mem_cons] at hmem
    rcases hmem with rfl | hmem
    · exact isPart_of_isStart hc
    · exact hparts e hmem
  rw [seen_solid hchars he (isSolid_of_isPart (isPart_of_isStart hc)),
    word_read hword (stops_write h hpart), skipBlank_write h]

theorem keyword_seen (hword : Word.isWord text = true) (h : Neat pieces) :
    keyword text (seen (token text :: pieces)) = .read text (seen pieces) :=
  guarded_read (word_seen hword h) (beq_self_eq_true text)

theorem keyword_refuses_seen {expected : String} (hword : Word.isWord text = true)
    (hne : text ≠ expected) (h : Neat pieces) :
    (keyword expected).Refuses (seen (token text :: pieces)) :=
  guarded_refuses (word_seen hword h) (beq_eq_false_iff_ne.mpr hne)

theorem wordIn_seen {expected : List String} (hword : Word.isWord text = true)
    (hmem : text ∈ expected) (h : Neat pieces) :
    wordIn expected (seen (token text :: pieces)) = .read text (seen pieces) :=
  guarded_read (word_seen hword h) (by simpa using hmem)

theorem identifier_seen (hname : Word.isName text = true) (h : Neat pieces) :
    identifier (seen (token text :: pieces)) = .read text (seen pieces) := by
  rw [Word.isName, Bool.and_eq_true] at hname
  exact guarded_read (word_seen hname.1 h) hname.2

/-! ### Punctuation -/

theorem punct_seen (c : Char) (text : String) (hchars : text.toList = [c])
    (hc : isSolid c = true) (h : Neat pieces) :
    punct c (seen (token text :: pieces)) = .read () (seen pieces) := by
  rw [seen_solid hchars (by rw [hchars]; rfl) hc, hchars, List.singleton_append, punct_read,
    skipBlank_write h]

theorem equals_seen (h : Neat pieces) (hnext : (seen pieces).head? ≠ some '=') :
    equals (seen (token "=" :: pieces)) = .read () (seen pieces) := by
  have hstops : Stops (· == '=') (write (some '=') pieces) := by
    refine stops_of_skipBlank (forall_mem_of_all (by decide)) (by decide) ?_
    rw [skipBlank_write h]
    intro c hc
    rw [beq_eq_false_iff_ne]
    rintro rfl
    exact hnext hc
  rw [seen_solid rfl rfl rfl]
  show equals ('=' :: write (some '=') pieces) = _
  rw [equals_read, skipBlank_write h]
  intro hhead
  exact absurd (hstops '=' hhead) (by decide)

/-! ### Operators -/

/-- Whether an operand can start with this character. -/
def startsOperand (c : Char) : Bool :=
  Word.isPart c || ['.', '(', '+', '-', '!', '~'].contains c

/-- The pieces start as an operand does. -/
def OperandFirst (pieces : List Piece) : Prop :=
  ∃ text c chars rest, pieces = token text :: rest ∧ text.toList = c :: chars ∧
    startsOperand c = true

theorem OperandFirst.append (h : OperandFirst pieces) (others : List Piece) :
    OperandFirst (pieces ++ others) := by
  obtain ⟨text, c, chars, rest, rfl, hchars, hc⟩ := h
  exact ⟨text, c, chars, rest ++ others, rfl, hchars, hc⟩

theorem isSolid_of_startsOperand {c : Char} (h : startsOperand c = true) : isSolid c = true := by
  rw [startsOperand, Bool.or_eq_true] at h
  rcases h with h | h
  · exact isSolid_of_isPart h
  · have hall : ∀ c ∈ ['.', '(', '+', '-', '!', '~'], isSolid c = true :=
      forall_mem_of_all (by decide)
    exact hall c (by simpa using h)

/-- What is written of an operand after a text starts with a space, or with a character of the
operand that does not clash with the text. -/
theorem exists_write_operand (h : OperandFirst pieces) (e : Char) :
    ∃ d tail, write (some e) pieces = d :: tail ∧
      (d = ' ' ∨ (startsOperand d = true ∧ clash e d = false)) := by
  obtain ⟨text, c, chars, rest, rfl, hchars, hc⟩ := h
  obtain ⟨l, hl⟩ := exists_getLast hchars
  rw [write_token _ hchars hl, hchars]
  by_cases hclash : clash e c = true
  · have hgap : gap (some e) c = [' '] := by simp [gap, hclash]
    rw [hgap]
    exact ⟨' ', _, rfl, Or.inl rfl⟩
  · have hgap : gap (some e) c = [] := by simp [gap, hclash]
    rw [hgap]
    exact ⟨c, _, rfl, Or.inr ⟨hc, by simpa using hclash⟩⟩

theorem operand_ne {d : Char} (h : d = ' ' ∨ startsOperand d = true) :
    isOperatorPart d = false ∧ (d == '/' || d == '*') = false := by
  have hnot : ∀ c ∈ ['=', '<', '>', '&', '|', '^', '/', '*'],
      c ≠ ' ' ∧ startsOperand c = false := forall_mem_of_all (by decide)
  have hne : ∀ c ∈ ['=', '<', '>', '&', '|', '^', '/', '*'], d ≠ c := by
    rintro c hc rfl
    obtain ⟨hspace, hstart⟩ := hnot d hc
    rcases h with h | h
    · exact hspace h
    · rw [hstart] at h
      cases h
  simp only [List.forall_mem_cons] at hne
  simp [isOperatorPart, hne]

theorem operator_seen (hop : text.toList ∈ operators) (hfirst : OperandFirst pieces)
    (h : Neat pieces) : operator (seen (token text :: pieces)) = .read text (seen pieces) := by
  obtain ⟨c, chars, hchars, hc⟩ := head_of_mem_operators hop
  obtain ⟨e, he⟩ := exists_getLast hchars
  obtain ⟨d, tail, hwrite, hd⟩ := exists_write_operand hfirst e
  have hdrop : skipBlank (d :: tail) = seen pieces := by rw [← hwrite, skipBlank_write h]
  obtain ⟨hpart, hslash⟩ := operand_ne (hd.imp_right And.left)
  have hsolid : skipBlank (text.toList ++ d :: tail) = text.toList ++ d :: tail := by
    rw [hchars, List.cons_append]
    by_cases hdiv : c = '/'
    · subst hdiv
      refine skipBlank_slash ?_
      -- the only operators that start with a slash are `/` and `/=`
      have hlist : ∀ s ∈ operators, s.head? = some '/' → s = ['/'] ∨ s = ['/', '='] := by decide
      rcases hlist _ hop (by rw [hchars]; rfl) with hone | htwo
      · cases hchars.symm.trans hone
        exact stops_cons.mpr hslash
      · cases hchars.symm.trans htwo
        exact stops_cons.mpr rfl
    · refine skipBlank_solid _ ?_
      have hlist : ∀ s ∈ operators, s.head?.all (fun c => c = '/' ∨ isSolid c = true) = true := by
        decide
      have hsolidOr := hlist _ hop
      rw [hchars, List.head?_cons, Option.all_some, decide_eq_true_eq] at hsolidOr
      exact hsolidOr.resolve_left hdiv
  have hclash : ∀ s : Char, clash s s = true → startsOperand s = true → text.toList = [s] →
      (d :: tail).head? ≠ some s := by
    intro s hss _ hs hhead
    rw [List.head?_cons, Option.some.injEq] at hhead
    subst hhead
    rw [hs, List.getLast?_singleton, Option.some.injEq] at he
    subst he
    rcases hd with rfl | ⟨-, hd⟩
    · cases hss
    · rw [hss] at hd
      cases hd
  rw [seen_token hchars he, hwrite, hsolid, ← hdrop, operator]
  refine (lexeme_read (oneOf_operators_read hop (stops_cons.mpr hpart) ?_ ?_)).trans ?_
  · exact hclash '+' rfl rfl
  · exact hclash '-' rfl rfl
  · rw [String.ofList_toList]

theorem update_seen (hop : text = "++" ∨ text = "--") (h : Neat pieces) :
    update (seen (token text :: pieces)) = .read text (seen pieces) := by
  have hseen : ∃ e, seen (token text :: pieces) = text.toList ++ write (some e) pieces := by
    rcases hop with rfl | rfl
    · exact ⟨'+', seen_solid rfl rfl rfl⟩
    · exact ⟨'-', seen_solid rfl rfl rfl⟩
  obtain ⟨e, he⟩ := hseen
  rw [he, update_read _ hop, skipBlank_write h]

/-! ### Literals, directives and qualifiers -/

theorem intLiteral_seen (htext : IntText text.toList) (h : Neat pieces)
    (hnext : Stops continuesInt (seen pieces)) :
    intLiteral (seen (token text :: pieces)) = .read text (seen pieces) ∧
      floatLiteral.Refuses (seen (token text :: pieces)) := by
  obtain ⟨c, chars, hchars, hc⟩ := htext.head
  obtain ⟨e, he⟩ := exists_getLast hchars
  have hstops : Stops continuesInt (write (some e) pieces) := by
    refine stops_of_skipBlank (forall_mem_of_all (by decide)) (by decide) ?_
    rwa [skipBlank_write h]
  rw [seen_solid hchars he (isSolid_of_isPart (isPart_of_isDigit hc))]
  refine ⟨?_, floatLiteral_refuses_int htext hstops⟩
  rw [intLiteral_read htext hstops, skipBlank_write h, String.ofList_toList]

theorem floatLiteral_seen (htext : FloatText text.toList) (h : Neat pieces)
    (hnext : Stops Word.isPart (seen pieces)) :
    floatLiteral (seen (token text :: pieces)) = .read text (seen pieces) := by
  obtain ⟨c, chars, hchars, hc⟩ := htext.head
  obtain ⟨e, he⟩ := exists_getLast hchars
  have hstops : Stops Word.isPart (write (some e) pieces) := by
    refine stops_of_skipBlank (forall_mem_of_all (by decide)) (by decide) ?_
    rwa [skipBlank_write h]
  have hsolid : isSolid c = true := by
    rw [Bool.or_eq_true, beq_iff_eq] at hc
    rcases hc with hc | rfl
    · exact isSolid_of_isPart (isPart_of_isDigit hc)
    · rfl
  rw [seen_solid hchars he hsolid, floatLiteral_read htext hstops, skipBlank_write h,
    String.ofList_toList]

theorem directive_seen (htext : Text.isDirective text = true) (h : Neat pieces) :
    Token.directive (seen (directive text :: pieces)) = .read text (seen pieces) := by
  have hhead : ∃ chars, text.toList = '#' :: chars := by
    simp only [Text.isDirective, Bool.and_eq_true, beq_iff_eq] at htext
    exact ⟨_, List.head?_eq_some_iff.mp htext.1.1 |>.choose_spec⟩
  obtain ⟨chars, hchars⟩ := hhead
  have hseen : seen (directive text :: pieces) =
      text.toList ++ '\n' :: write (some '\n') pieces := by
    rw [seen, write_directive, skipBlank_blanks _ fun d hd => isBlank_of_mem_lineBreak hd, hchars]
    exact skipBlank_solid _ rfl
  rw [hseen, directive_read htext (by simp), skipBlank_blank _ rfl, skipBlank_write h]

theorem head?_seen_directive (htext : Text.isDirective text = true) :
    (seen (directive text :: pieces)).head? = some '#' := by
  simp only [Text.isDirective, Bool.and_eq_true, beq_iff_eq] at htext
  obtain ⟨chars, hchars⟩ := List.head?_eq_some_iff.mp htext.1.1
  rw [seen, write_directive, skipBlank_blanks _ fun d hd => isBlank_of_mem_lineBreak hd, hchars]
  exact congrArg List.head? (skipBlank_solid _ rfl)

theorem declarationQualifier_seen (htext : Declaration.declarationQualifier.accepts text = true)
    (h : Neat pieces) :
    Declaration.declarationQualifier (seen (token text :: pieces)) = .read text (seen pieces) := by
  rcases Declaration.accepts_declarationQualifier.mp htext with
    ⟨entries, hne, hentries, rfl⟩ | hmem
  · obtain ⟨c, chars, hchars, hc⟩ : ∃ c chars,
        (Declaration.layoutText entries).toList = c :: chars ∧ isSolid c = true :=
      ⟨'l', "ayout(".toList ++ (String.intercalate "," entries).toList ++ [')'],
        by simp [Declaration.layoutText], rfl⟩
    obtain ⟨e, he⟩ := exists_getLast hchars
    refine orElse_read _ ?_
    rw [seen_solid hchars he hc, Declaration.layoutQualifier_read _ hne hentries,
      skipBlank_write h]
  · have hword := Declaration.isWord_of_mem_qualifiers hmem
    refine orElse_refuses (Refuses.bind (keyword_refuses_seen hword ?_ h) _)
      (wordIn_seen hword hmem h)
    have hlayout : ∀ w ∈ Word.storageQualifiers ++ Word.precisionQualifiers, w ≠ "layout" := by
      decide
    exact hlayout text hmem

end GlslShrink.Piece
