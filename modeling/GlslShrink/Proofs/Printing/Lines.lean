import GlslShrink.Proofs.Printing.Tidy
import GlslShrink.Proofs.Text.Lines
import Mathlib.Data.List.Chain

/-!
The lines of a printed text. Each of them is a directive or made of tokens, and a line of tokens at
the end is left open (`Piece.exists_lines_write`). A space between tokens follows a part of a word,
a plus or a minus, so no line of tokens has one after an exclamation mark, as the markers of a
document have (`Text.PrintedLine.trimEnd_ne_marker`).
-/

set_option autoImplicit false

namespace GlslShrink

open Text Piece

/-! ### Lines -/

namespace Text

/-- A line of tokens: its white space is spaces, and none of them follows an exclamation mark. -/
structure TokenLine (line : List Char) : Prop where
  space : ∀ c ∈ line, isSpace c = true → c = ' '
  apart : line.IsChain fun c d => d = ' ' → c ≠ '!'

/-- A line of a printed text. -/
def PrintedLine (line : List Char) : Prop :=
  TokenLine line ∨ ∃ text, isDirective text = true ∧ text.toList = line

theorem tokenLine_nil : TokenLine [] where
  space := List.forall_mem_nil _
  apart := List.isChain_nil

theorem TokenLine.not_mem {line : List Char} {c : Char} (h : TokenLine line)
    (hc : isSpace c = true) (hne : c ≠ ' ') : c ∉ line :=
  fun hmem => hne (h.space c hmem hc)

theorem trimEnd_append (line : List Char) : ∃ spaces, trimEnd line ++ spaces = line := by
  obtain ⟨spaces, hspaces⟩ := List.dropWhile_suffix (l := line.reverse) isSpace
  refine ⟨spaces.reverse, ?_⟩
  rw [trimEnd, ← List.reverse_append, hspaces, List.reverse_reverse]

/-- A text without white space at its end does not end with white space. -/
theorem isSpace_getLast {line : List Char} (h : trimEnd line = line) {c : Char}
    (hc : line.getLast? = some c) : isSpace c = false := by
  have hhead := List.head?_dropWhile_not isSpace line.reverse
  have hdropped : line.reverse.dropWhile isSpace = line.reverse := by
    rw [← List.reverse_inj, List.reverse_reverse]
    exact h
  rw [hdropped, List.head?_reverse, hc] at hhead
  exact hhead

namespace PrintedLine

variable {line : List Char} (h : PrintedLine line)

include h

theorem newline_not_mem : '\n' ∉ line := by
  rcases h with h | ⟨text, htext, rfl⟩
  · exact h.not_mem rfl (by decide)
  · simp only [isDirective, Bool.and_eq_true, Bool.not_eq_true', List.contains_eq_mem,
      decide_eq_false_iff_not] at htext
    exact htext.1.2

theorem getLast?_ne_return : line.getLast? ≠ some '\r' := by
  intro hlast
  rcases h with h | ⟨text, htext, rfl⟩
  · exact h.not_mem rfl (by decide) (List.mem_of_getLast? hlast)
  · simp only [isDirective, Bool.and_eq_true, beq_iff_eq] at htext
    cases isSpace_getLast htext.2 hlast

/-- No printed line marks the fragment stage. -/
theorem trimEnd_ne_marker : trimEnd line ≠ "//! FRAGMENT".toList := by
  intro hmarker
  obtain ⟨spaces, hline⟩ := trimEnd_append line
  rw [hmarker] at hline
  rcases h with h | ⟨text, htext, rfl⟩
  · have hchain : (['/', '/'] ++ '!' :: ' ' :: ("FRAGMENT".toList ++ spaces)).IsChain
        fun c d => d = ' ' → c ≠ '!' := hline ▸ h.apart
    exact (List.isChain_append_cons_cons.mp hchain).2.1 rfl rfl
  · simp only [isDirective, Bool.and_eq_true, beq_iff_eq] at htext
    rw [← hline] at htext
    cases htext.1.1

end PrintedLine

end Text

/-! ### What is written -/

namespace Piece

/-- The last character of a text whose last line is `line`. -/
def EndsLine (last : Option Char) (line : List Char) : Prop :=
  last = line.getLast? ∨ line = [] ∧ last = some '\n'

variable {last : Option Char} {line : List Char}

theorem lineBreak_of_endsLine (hlast : EndsLine last line) (hline : '\n' ∉ line) :
    lineBreak last = if line = [] then [] else ['\n'] := by
  rcases hlast with rfl | ⟨rfl, rfl⟩
  · cases hchar : line.getLast? with
    | none => rw [List.getLast?_eq_none_iff.mp hchar]; rfl
    | some c =>
      have hmem := List.mem_of_getLast? hchar
      have hne : c ≠ '\n' := fun heq => hline (heq ▸ hmem)
      rw [lineBreak, if_neg hne, if_neg (List.ne_nil_of_mem hmem)]
  · rfl

/-- A space is only written between characters that clash, and an exclamation mark clashes with
none. -/
theorem gap_cases (hlast : EndsLine last line) (c : Char) :
    gap last c = [] ∨ gap last c = [' '] ∧ ∀ e ∈ line.getLast?, e ≠ '!' := by
  rcases hlast with rfl | ⟨rfl, rfl⟩
  · cases hchar : line.getLast? with
    | none => exact Or.inl rfl
    | some e =>
      by_cases hclash : clash e c = true
      · refine Or.inr ⟨if_pos hclash, ?_⟩
        rintro _ ⟨⟩ rfl
        cases hclash
      · exact Or.inl (if_neg hclash)
  · exact Or.inl rfl

theorem tokenLine_append {text : String} (hline : TokenLine line) (hlast : EndsLine last line)
    (htext : Compact text) (c : Char) : TokenLine (line ++ (gap last c ++ text.toList)) := by
  have hspace : ∀ d ∈ text.toList, d ≠ ' ' := by
    rintro d hd rfl
    cases htext ' ' hd
  have hhead : ∀ d ∈ text.toList.head?, d ≠ ' ' := fun d hd => hspace d (List.mem_of_mem_head? hd)
  have hchain : text.toList.IsChain fun c d => d = ' ' → c ≠ '!' := by
    rw [List.isChain_iff_forall_rel_of_append_cons_cons]
    intro a b front back hparts hb
    exact absurd hb (hspace b (by simp [hparts]))
  have hwhite : ∀ d ∈ text.toList, isSpace d = true → d = ' ' := by
    intro d hd hwhite
    rw [htext d hd] at hwhite
    cases hwhite
  rcases gap_cases hlast c with hgap | ⟨hgap, hmark⟩
  · rw [hgap, List.nil_append]
    refine ⟨List.forall_mem_append.mpr ⟨hline.space, hwhite⟩, ?_⟩
    exact hline.apart.append hchain fun _ _ d hd hblank => absurd hblank (hhead d hd)
  · rw [hgap, List.singleton_append]
    refine ⟨List.forall_mem_append.mpr ⟨hline.space,
      List.forall_mem_cons.mpr ⟨fun _ => rfl, hwhite⟩⟩, ?_⟩
    exact hline.apart.append (hchain.cons fun d hd hblank => absurd hblank (hhead d hd))
      fun e he _ _ _ => hmark e he

/-- Tidy pieces go on with a line of tokens, write printed lines and end with a line of tokens. -/
theorem exists_lines_write {pieces : List Piece} (h : Tidy pieces) (hline : TokenLine line)
    (hlast : EndsLine last line) :
    ∃ ended rest, line ++ write last pieces = unlines ended ++ rest ∧
      (∀ line ∈ ended, PrintedLine line) ∧ TokenLine rest := by
  induction pieces generalizing last line with
  | nil => exact ⟨[], line, by rw [write, List.append_nil]; rfl, List.forall_mem_nil _, hline⟩
  | cons piece pieces ih =>
    obtain ⟨hpiece, htidy⟩ := tidy_cons.mp h
    have hstart : EndsLine (some '\n') [] := Or.inr ⟨rfl, rfl⟩
    cases piece with
    | token text =>
      cases hchars : text.toList with
      | nil =>
        rw [write_empty last hchars]
        exact ih htidy hline hlast
      | cons c chars =>
        obtain ⟨e, he⟩ := exists_getLast hchars
        have hnext := tokenLine_append hline hlast (isTidy_token.mp hpiece) c
        have hends : EndsLine (some e) (line ++ (gap last c ++ text.toList)) :=
          Or.inl (by simp [List.getLast?_append, he])
        obtain ⟨ended, rest, htext, hended, hrest⟩ := ih htidy hnext hends
        refine ⟨ended, rest, ?_, hended, hrest⟩
        rw [← htext, write_token last hchars he]
        simp
    | verbatim text =>
      rw [isTidy, Bool.or_eq_true, beq_iff_eq, beq_iff_eq] at hpiece
      rcases hpiece with rfl | rfl
      · exact ih htidy hline hlast
      · obtain ⟨ended, rest, htext, hended, hrest⟩ := ih htidy tokenLine_nil hstart
        refine ⟨line :: ended, rest, ?_, List.forall_mem_cons.mpr ⟨Or.inl hline, hended⟩, hrest⟩
        show line ++ '\n' :: write (some '\n') pieces = _
        rw [unlines_cons, List.append_assoc, List.cons_append, ← htext]
        rfl
    | directive text =>
      obtain ⟨ended, rest, htext, hended, hrest⟩ := ih htidy tokenLine_nil hstart
      have hprinted : PrintedLine text.toList := Or.inr ⟨text, hpiece, rfl⟩
      have hlines := List.forall_mem_cons.mpr ⟨hprinted, hended⟩
      rw [write_directive, lineBreak_of_endsLine hlast (hline.not_mem rfl (by decide))]
      split
      · rename_i hempty
        refine ⟨text.toList :: ended, rest, ?_, hlines, hrest⟩
        rw [hempty, unlines_cons, List.append_assoc, List.cons_append, ← htext]
        rfl
      · refine ⟨line :: text.toList :: ended, rest, ?_,
          List.forall_mem_cons.mpr ⟨Or.inl hline, hlines⟩, hrest⟩
        rw [unlines_cons, unlines_cons]
        simp [← htext]

theorem mem_write {pieces : List Piece} {piece : Piece} (hpiece : piece ∈ pieces) {c : Char}
    (hc : ∀ last, c ∈ piece.chars last) (last : Option Char) : c ∈ write last pieces := by
  induction pieces generalizing last with
  | nil => cases hpiece
  | cons first pieces ih =>
    rw [write, List.mem_append]
    rcases List.mem_cons.mp hpiece with rfl | hpiece
    · exact Or.inl (hc last)
    · exact Or.inr (ih hpiece _)

/-- The pieces write some character that is not white space, whatever is in front of them. -/
def Visible (pieces : List Piece) : Prop :=
  ∃ piece ∈ pieces, ∃ c, isSpace c = false ∧ ∀ last, c ∈ piece.chars last

theorem Visible.mono {pieces others : List Piece} (h : Visible pieces) (hsub : pieces ⊆ others) :
    Visible others := by
  obtain ⟨piece, hpiece, hvisible⟩ := h
  exact ⟨piece, hsub hpiece, hvisible⟩

theorem visible_token (text : String) {pieces : List Piece} {c : Char}
    (hmem : token text ∈ pieces) (htext : text.toList = [c]) (hc : isSpace c = false) :
    Visible pieces := by
  refine ⟨token text, hmem, c, hc, fun last => ?_⟩
  simp [Piece.chars, htext]

theorem visible_directive {text : String} (htext : isDirective text = true) :
    Visible [directive text] := by
  simp only [isDirective, Bool.and_eq_true, beq_iff_eq] at htext
  have hmark : '#' ∈ text.toList := List.mem_of_mem_head? htext.1.1
  refine ⟨directive text, List.mem_singleton_self _, '#', rfl, fun last => ?_⟩
  simp [Piece.chars, hmark]

end Piece

/-! ### Printed shaders -/

/-- Every top-level declaration is seen in the text. -/
theorem Sketch.visible_statementOf {separator : String} {node : Node} {slots : List (Slot Sketch)}
    (hfits : node.fitsGrammar = true) (htop : node.tag.isTopLevel = true) :
    Visible (statementOf separator node slots) := by
  cases hcase : node.tag with
  | directive =>
    have hvalue := (Node.fitsGrammar_iff.mp hfits).2.2.1
    rw [hcase] at hvalue
    simp only [statementOf, hcase]
    exact visible_directive hvalue
  | precision | declaration | functionPrototype =>
    exact visible_token ";" (by simp [statementOf, hcase, declarationOf]) rfl rfl
  | functionDefinition =>
    exact visible_token "(" (by simp [statementOf, hcase, functionHeader]) rfl rfl
  | _ =>
    rw [hcase] at htop
    cases htop

theorem Node.pieces_of_shader {root : Node} (htag : root.tag = .shader) (separator : String) :
    root.pieces separator =
      (root.list 0).flatMap fun node => Sketch.separatedBy separator (node.sketch separator) := by
  rw [Node.pieces, htag, if_neg (by decide), Node.sketch_eq]
  show Sketch.statementOf separator root _ = _
  simp only [Sketch.statementOf, htag, Slot.listAt_map, List.map_map, List.flatMap_def]
  rfl

/-- A shader is not printed as an empty line. -/
theorem Node.Grammatical.render_ne_newline {root : Node} (h : root.Grammatical)
    (htag : root.tag = .shader) (separator : String) : root.render separator ≠ "\n" := by
  intro hrender
  have hwrite : write none (root.pieces separator) = ['\n'] := by
    rw [Node.render, ← String.toList_inj, String.toList_ofList] at hrender
    exact hrender
  have hpieces := Node.pieces_of_shader htag separator
  cases hlist : root.list 0 with
  | nil =>
    rw [hpieces, hlist] at hwrite
    cases hwrite
  | cons first others =>
    have hmem : first ∈ root.list 0 := hlist ▸ List.mem_cons_self
    have hfits := (h.child (mem_children_of_mem_list hmem)).root
    have htop : first.tag.isTopLevel = true := tag_of_mem_list h.root (by rw [htag]; rfl) hmem
    have hvisible : Visible (root.pieces separator) := by
      have hfirst : Visible (first.sketch separator).statement := by
        rw [Node.sketch_eq]
        exact Sketch.visible_statementOf hfits htop
      refine hfirst.mono fun piece hpiece => ?_
      rw [hpieces]
      refine List.mem_flatMap.mpr ⟨first, hmem, ?_⟩
      unfold Sketch.separatedBy
      split
      · exact hpiece
      · exact List.mem_append_left _ hpiece
    obtain ⟨piece, hpiece, c, hc, hchars⟩ := hvisible
    have hin := mem_write hpiece hchars none
    rw [hwrite, List.mem_singleton] at hin
    rw [hin] at hc
    cases hc

end GlslShrink
