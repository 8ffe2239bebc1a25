import GlslShrink.Proofs.Printing.Written
import GlslShrink.Proofs.Reading.Scan

/-!
What is written says what its pieces say. Between the pieces only blanks are added, so the text says
the same as the pieces one after the other (`Piece.stripped_write`), unless a slash and the piece
after it start a comment. `Piece.Says` excludes that.
-/

set_option autoImplicit false

namespace GlslShrink.Piece

open Token Text

/-- The text makes no comment of a slash in front of it. -/
def keepsSlash (text : String) : Bool :=
  text.toList.head?.any fun c => c != '/' && c != '*'

/-- The pieces say these characters one after the other, apart from parentheses, and no comment
starts in them. The flag asks for pieces that may stand behind a slash. -/
inductive Says : Bool → List Piece → List Char → Prop where
  | nil : Says false [] []
  | token {afterSlash : Bool} {text : String} {pieces : List Piece} {said : List Char}
    (hplain : PlainToken text.toList) (hslash : afterSlash = true → keepsSlash text = true)
    (hrest : Says false pieces said) :
    Says afterSlash (token text :: pieces) (bared text.toList ++ said)
  | slash {pieces : List Piece} {said : List Char} (hrest : Says true pieces said) :
    Says false (token "/" :: pieces) ('/' :: said)
  | directive {text : String} {pieces : List Piece} {said : List Char}
    (htext : isDirective text = true) (hrest : Says false pieces said) :
    Says false (directive text :: pieces) (text.toList ++ said)
  | verbatim {text : String} {pieces : List Piece} {said : List Char}
    (htext : ∀ c ∈ text.toList, isSpace c = true) (hrest : Says false pieces said) :
    Says false (verbatim text :: pieces) said

namespace Says

variable {afterSlash : Bool} {pieces others : List Piece} {said more : List Char}

theorem append (h : Says afterSlash pieces said) (hothers : Says false others more) :
    Says afterSlash (pieces ++ others) (said ++ more) := by
  induction h with
  | nil => exact hothers
  | token hplain hslash _ ih =>
    rw [List.append_assoc]
    exact .token hplain hslash ih
  | slash _ ih => exact .slash ih
  | directive htext _ ih =>
    rw [List.append_assoc]
    exact .directive htext ih
  | verbatim htext _ ih => exact .verbatim htext ih

theorem anywhere (h : Says true pieces said) : Says false pieces said := by
  cases h with
  | token hplain _ hrest =>
    exact .token hplain (fun hfalse => absurd hfalse Bool.false_ne_true) hrest

end Says

/-! ### What is written -/

theorem stripped_spaces {spaces : List Char} (rest : List Char)
    (h : ∀ c ∈ spaces, isSpace c = true) : stripped (spaces ++ rest) = stripped rest :=
  scan_spaces rest h

theorem stripped_gap (last : Option Char) (c : Char) (rest : List Char) :
    stripped (gap last c ++ rest) = stripped rest :=
  stripped_spaces rest fun _ hd => isSpace_of_isBlank (isBlank_of_mem_gap hd)

/-- A directive is copied as it is, since it has no white space at its end. -/
theorem stripped_directive {text : String} (rest : List Char) (h : isDirective text = true) :
    stripped (text.toList ++ '\n' :: rest) = text.toList ++ stripped rest := by
  simp only [isDirective, Bool.and_eq_true, beq_iff_eq, Bool.not_eq_true',
    List.contains_eq_mem, decide_eq_false_iff_not] at h
  obtain ⟨⟨hhead, hnewline⟩, htrim⟩ := h
  obtain ⟨line, hline⟩ := List.head?_eq_some_iff.mp hhead
  rw [hline] at hnewline htrim ⊢
  have hscan : stripped ('#' :: line ++ '\n' :: rest) =
      trimEnd ('#' :: line) ++ stripped ('\n' :: rest) :=
    scan_line fun hmem => hnewline (List.mem_cons_of_mem _ hmem)
  have hbreak : stripped ('\n' :: rest) = stripped rest := scan_space rest (by decide)
  rw [hscan, htrim, hbreak]

/-- A space between the slash and the next piece makes no comment of it either. -/
theorem skipBlank_slash_gap {c : Char} (last : Option Char) (rest : List Char)
    (hc : (c != '/' && c != '*') = true) :
    skipBlank ('/' :: (gap last c ++ c :: rest)) = '/' :: (gap last c ++ c :: rest) := by
  refine skipBlank_slash ?_
  cases hgap : gap last c with
  | nil =>
    refine Reader.stops_cons.mpr ?_
    simpa [Bool.and_eq_true] using hc
  | cons d spaces =>
    have hd : isBlank d = true := isBlank_of_mem_gap (hgap ▸ List.mem_cons_self)
    refine Reader.stops_cons.mpr (Bool.eq_false_iff.mpr fun hmark => ?_)
    rw [Bool.or_eq_true, beq_iff_eq, beq_iff_eq] at hmark
    rcases hmark with rfl | rfl <;> cases hd

/-- The slash in front of pieces that stand behind one. -/
def slashIf (afterSlash : Bool) : List Char :=
  if afterSlash then ['/'] else []

/-- What is written says what the pieces say, also behind a slash. -/
theorem stripped_write {afterSlash : Bool} {pieces : List Piece} {said : List Char}
    (h : Says afterSlash pieces said) (last : Option Char) :
    stripped (slashIf afterSlash ++ write last pieces) = slashIf afterSlash ++ said := by
  induction h generalizing last with
  | nil => exact scan_nil
  | @token afterSlash text pieces said hplain hslash _ ih =>
    cases hchars : text.toList with
    | nil =>
      -- nothing is written, so no slash can stand in front
      have hfalse : afterSlash = false := by
        cases afterSlash with
        | false => rfl
        | true =>
          have hkeeps := hslash rfl
          rw [keepsSlash, hchars] at hkeeps
          cases hkeeps
      subst hfalse
      rw [write_empty last hchars, ih last]
      rfl
    | cons c chars =>
      obtain ⟨e, he⟩ : ∃ e, text.toList.getLast? = some e :=
        ⟨_, List.getLast?_eq_some_getLast (by rw [hchars]; exact List.cons_ne_nil _ _)⟩
      have hrest : stripped (text.toList ++ write (some e) pieces) = bared text.toList ++ said :=
        (stripped_token _ hplain).trans (congrArg _ (ih (some e)))
      rw [write_token last hchars he, ← hchars]
      cases afterSlash with
      | false => exact (stripped_gap last c _).trans hrest
      | true =>
        have hkeeps := hslash rfl
        rw [keepsSlash, hchars] at hkeeps
        have hskip := skipBlank_slash_gap last (chars ++ write (some e) pieces) hkeeps
        have hslash : stripped ('/' :: (gap last c ++ (text.toList ++ write (some e) pieces))) =
            '/' :: stripped (gap last c ++ (text.toList ++ write (some e) pieces)) :=
          scan_slash (by rw [hchars]; exact hskip)
        exact hslash.trans (congrArg _ ((stripped_gap last c _).trans hrest))
  | @slash pieces said _ ih =>
    rw [write_token last rfl rfl]
    exact (stripped_gap last '/' _).trans (ih (some '/'))
  | @directive text pieces said htext _ ih =>
    have hbreak : ∀ c ∈ lineBreak last, isSpace c = true := fun _ hc =>
      isSpace_of_isBlank (isBlank_of_mem_lineBreak hc)
    rw [write_directive]
    exact (stripped_spaces _ hbreak).trans
      ((stripped_directive _ htext).trans (congrArg _ (ih (some '\n'))))
  | @verbatim text pieces said htext _ ih => exact (stripped_spaces _ htext).trans (ih _)

end GlslShrink.Piece
