import GlslShrink.Text.Lines
import Mathlib.Data.List.DropRight
import Mathlib.Data.List.Infix

/-!
Texts as sequences of lines. A text whose last line is ended is `unlines` of its raw lines, in which
no line feed occurs (`exists_unlines`), and these are determined by it (`unlines_injective`).
Cutting such a text gives the raw lines without the carriage returns at their ends
(`lines_unlines`), so it gives the raw lines themselves if and only if no carriage return stands in
front of a line feed (`map_chomp_eq_self_iff`). What the lines of any text are is said by `Lined`,
and what a line is without the white space around it by `Trimmed`.
-/

set_option autoImplicit false

namespace GlslShrink.Text

/-- The text of lines each of which is ended by a line feed. -/
def unlines (lines : List (List Char)) : List Char :=
  lines.flatMap (· ++ ['\n'])

/-- The line without the carriage return at its end. -/
def chomp (line : List Char) : List Char :=
  (dropReturn line.reverse).reverse

@[simp]
theorem unlines_nil : unlines [] = [] :=
  rfl

theorem unlines_cons (line : List Char) (lines : List (List Char)) :
    unlines (line :: lines) = line ++ '\n' :: unlines lines := by
  rw [unlines, List.flatMap_cons, List.append_assoc, List.singleton_append, unlines]

theorem unlines_append (lines others : List (List Char)) :
    unlines (lines ++ others) = unlines lines ++ unlines others :=
  List.flatMap_append

theorem getLast?_unlines {lines : List (List Char)} (h : lines ≠ []) :
    (unlines lines).getLast? = some '\n' := by
  rw [← List.dropLast_concat_getLast h, unlines_append, unlines_cons, unlines_nil,
    ← List.append_assoc, List.getLast?_concat]

/-- Every text consists of raw lines and a last one that is not ended. -/
theorem exists_unlines_append (text : List Char) :
    ∃ raw rest, text = unlines raw ++ rest ∧ (∀ line ∈ raw, '\n' ∉ line) ∧ '\n' ∉ rest := by
  induction text with
  | nil => exact ⟨[], [], rfl, List.forall_mem_nil _, List.not_mem_nil⟩
  | cons c text ih =>
    obtain ⟨raw, rest, rfl, hraw, hrest⟩ := ih
    by_cases hbreak : c = '\n'
    · subst hbreak
      exact ⟨[] :: raw, rest, by rw [unlines_cons]; rfl,
        List.forall_mem_cons.mpr ⟨List.not_mem_nil, hraw⟩, hrest⟩
    · have hmore : ∀ {line : List Char}, '\n' ∉ line → '\n' ∉ c :: line := fun hline =>
        List.not_mem_cons_of_ne_of_not_mem (Ne.symm hbreak) hline
      cases raw with
      | nil => exact ⟨[], c :: rest, rfl, List.forall_mem_nil _, hmore hrest⟩
      | cons line raw =>
        obtain ⟨hline, hraw⟩ := List.forall_mem_cons.mp hraw
        refine ⟨(c :: line) :: raw, rest, ?_, List.forall_mem_cons.mpr ⟨hmore hline, hraw⟩, hrest⟩
        rw [unlines_cons, unlines_cons, List.cons_append, List.cons_append]

/-- Every text whose last line is ended consists of raw lines. -/
theorem exists_unlines {text : List Char} (h : text = [] ∨ text.getLast? = some '\n') :
    ∃ lines, text = unlines lines ∧ ∀ line ∈ lines, '\n' ∉ line := by
  obtain ⟨raw, rest, rfl, hraw, hrest⟩ := exists_unlines_append text
  have hended : rest = [] := by
    rcases h with hnil | hlast
    · exact (List.append_eq_nil_iff.mp hnil).2
    · by_contra hopen
      rw [List.getLast?_append_of_ne_nil _ hopen] at hlast
      exact hrest (List.mem_of_getLast? hlast)
  exact ⟨raw, by rw [hended, List.append_nil], hraw⟩

/-- A line and what follows its line feed are determined by the text. -/
theorem append_newline_inj {line line' rest rest' : List Char} (hline : '\n' ∉ line)
    (hline' : '\n' ∉ line') (h : line ++ '\n' :: rest = line' ++ '\n' :: rest') :
    line = line' ∧ rest = rest' := by
  induction line generalizing line' with
  | nil =>
    cases line' with
    | nil => exact ⟨rfl, (List.cons.inj h).2⟩
    | cons c line' => exact absurd ((List.cons.inj h).1 ▸ List.mem_cons_self) hline'
  | cons c line ih =>
    cases line' with
    | nil => exact absurd ((List.cons.inj h).1 ▸ List.mem_cons_self) hline
    | cons c' line' =>
      obtain ⟨rfl, hrest⟩ := List.cons.inj h
      obtain ⟨rfl, rfl⟩ := ih (List.not_mem_of_not_mem_cons hline)
        (List.not_mem_of_not_mem_cons hline') hrest
      exact ⟨rfl, rfl⟩

/-- A text has one sequence of raw lines. -/
theorem unlines_injective {lines lines' : List (List Char)} (hlines : ∀ line ∈ lines, '\n' ∉ line)
    (hlines' : ∀ line ∈ lines', '\n' ∉ line) (h : unlines lines = unlines lines') :
    lines = lines' := by
  induction lines generalizing lines' with
  | nil =>
    cases lines' with
    | nil => rfl
    | cons line lines' =>
      rw [unlines_cons] at h
      cases line <;> cases h
  | cons line lines ih =>
    cases lines' with
    | nil =>
      rw [unlines_cons] at h
      cases line <;> cases h
    | cons line' lines' =>
      rw [unlines_cons, unlines_cons] at h
      obtain ⟨hline, hlines⟩ := List.forall_mem_cons.mp hlines
      obtain ⟨hline', hlines'⟩ := List.forall_mem_cons.mp hlines'
      obtain ⟨hsame, hrest⟩ := append_newline_inj hline hline' h
      rw [hsame, ih hlines hlines' hrest]

/-! ### Cutting -/

theorem chomp_concat_return (line : List Char) : chomp (line ++ ['\r']) = line := by
  rw [chomp, List.reverse_concat, dropReturn, List.reverse_reverse]

theorem chomp_eq_self_iff {line : List Char} : chomp line = line ↔ line.getLast? ≠ some '\r' := by
  rcases List.eq_nil_or_concat line with rfl | ⟨front, c, rfl⟩
  · simp [chomp, dropReturn]
  · rw [List.concat_eq_append, List.getLast?_concat, ne_eq, Option.some.injEq]
    by_cases hc : c = '\r'
    · subst hc
      rw [chomp_concat_return]
      simp
    · refine iff_of_true ?_ hc
      rw [chomp, List.reverse_concat, dropReturn, List.reverse_cons, List.reverse_reverse]
      rintro rest ⟨⟩
      exact hc rfl

theorem chomp_subset (line : List Char) : chomp line ⊆ line := by
  rcases List.eq_nil_or_concat line with rfl | ⟨front, c, rfl⟩
  · exact List.Subset.refl _
  · by_cases hc : c = '\r'
    · subst hc
      rw [List.concat_eq_append, chomp_concat_return]
      exact List.subset_append_left front ['\r']
    · have hself : chomp (front.concat c) = front.concat c := by
        rw [chomp_eq_self_iff, List.concat_eq_append, List.getLast?_concat, ne_eq,
          Option.some.injEq]
        exact hc
      rw [hself]
      exact List.Subset.refl _

theorem linesFrom_append_newline (current line rest : List Char) (hline : '\n' ∉ line) :
    linesFrom current (line ++ '\n' :: rest) = chomp (current.reverse ++ line) :: lines rest := by
  induction line generalizing current with
  | nil =>
    rw [List.append_nil, chomp, List.reverse_reverse, List.nil_append, linesFrom, if_pos rfl, lines]
  | cons c line ih =>
    rw [List.cons_append, linesFrom, if_neg (List.ne_of_not_mem_cons hline).symm,
      ih (c :: current) (List.not_mem_of_not_mem_cons hline), List.reverse_cons, List.append_assoc,
      List.singleton_append]

/-- Cutting drops the carriage returns at the ends of raw lines. -/
theorem lines_unlines_append {raw : List (List Char)} (hraw : ∀ line ∈ raw, '\n' ∉ line)
    (rest : List Char) : lines (unlines raw ++ rest) = raw.map chomp ++ lines rest := by
  induction raw with
  | nil => rfl
  | cons line raw ih =>
    obtain ⟨hline, hraw⟩ := List.forall_mem_cons.mp hraw
    rw [unlines_cons, List.append_assoc, List.cons_append, lines,
      linesFrom_append_newline [] line _ hline, ih hraw, List.map_cons, List.cons_append,
      List.reverse_nil, List.nil_append]

theorem lines_unlines {raw : List (List Char)} (hraw : ∀ line ∈ raw, '\n' ∉ line) :
    lines (unlines raw) = raw.map chomp := by
  have hlines := lines_unlines_append hraw []
  have hnil : lines [] = [] := rfl
  rwa [List.append_nil, hnil, List.append_nil] at hlines

theorem linesFrom_of_newline_not_mem (current : List Char) {line : List Char} (hline : '\n' ∉ line)
    (hne : current.reverse ++ line ≠ []) : linesFrom current line = [current.reverse ++ line] := by
  induction line generalizing current with
  | nil =>
    rw [List.append_nil] at hne ⊢
    rw [linesFrom, if_neg]
    rwa [List.isEmpty_iff, ← List.reverse_eq_nil_iff]
  | cons c line ih =>
    rw [linesFrom, if_neg (List.ne_of_not_mem_cons hline).symm,
      ih (c :: current) (List.not_mem_of_not_mem_cons hline) (by simp), List.reverse_cons,
      List.append_assoc, List.singleton_append]

/-- A text and its lines. A line is ended by a line feed, or by a carriage return and a line feed;
the last one needs no ending, but is not empty then. -/
inductive Lined : List Char → List (List Char) → Prop where
  | nil : Lined [] []
  | last {line : List Char} : '\n' ∉ line → line ≠ [] → Lined line [line]
  | feed {line rest : List Char} {lines : List (List Char)} : '\n' ∉ line →
      line.getLast? ≠ some '\r' → Lined rest lines → Lined (line ++ '\n' :: rest) (line :: lines)
  | returnFeed {line rest : List Char} {lines : List (List Char)} : '\n' ∉ line →
      Lined rest lines → Lined (line ++ '\r' :: '\n' :: rest) (line :: lines)

/-- Cutting gives the lines of a text. -/
theorem lined_lines (text : List Char) : Lined text (lines text) := by
  obtain ⟨raw, rest, rfl, hraw, hrest⟩ := exists_unlines_append text
  rw [lines_unlines_append hraw]
  induction raw with
  | nil =>
    by_cases hempty : rest = []
    · rw [hempty]
      exact .nil
    · have hlines : lines rest = [rest] := linesFrom_of_newline_not_mem [] hrest hempty
      rw [unlines_nil, List.nil_append, List.map_nil, List.nil_append, hlines]
      exact .last hrest hempty
  | cons line raw ih =>
    obtain ⟨hline, hothers⟩ := List.forall_mem_cons.mp hraw
    rw [unlines_cons, List.append_assoc, List.cons_append, List.map_cons, List.cons_append]
    by_cases hreturn : line.getLast? = some '\r'
    · obtain ⟨front, rfl⟩ := List.getLast?_eq_some_iff.mp hreturn
      rw [chomp_concat_return, List.append_assoc, List.singleton_append]
      exact .returnFeed (fun hmem => hline (List.mem_append_left _ hmem)) (ih hothers)
    · rw [chomp_eq_self_iff.mpr hreturn]
      exact .feed hline hreturn (ih hothers)

/-- A text has one sequence of lines. -/
theorem Lined.eq_lines {text : List Char} {file : List (List Char)} (h : Lined text file) :
    file = lines text := by
  induction h with
  | nil => rfl
  | last hline hne => exact (linesFrom_of_newline_not_mem [] hline hne).symm
  | @feed line rest _ hline hreturn _ ih =>
    have hcut : lines (line ++ '\n' :: rest) = chomp line :: lines rest :=
      linesFrom_append_newline [] line rest hline
    rw [hcut, chomp_eq_self_iff.mpr hreturn, ih]
  | @returnFeed line rest _ hline _ ih =>
    have hended : '\n' ∉ line ++ ['\r'] := by
      rw [List.mem_append, List.mem_singleton]
      exact not_or.mpr ⟨hline, by decide⟩
    have hcut : lines (line ++ ['\r'] ++ '\n' :: rest) = chomp (line ++ ['\r']) :: lines rest :=
      linesFrom_append_newline [] _ rest hended
    rw [List.append_assoc, List.singleton_append] at hcut
    rw [hcut, chomp_concat_return, ih]

/-- Lines hold characters of the text, and no line feeds. -/
theorem mem_of_mem_linesFrom {current text line : List Char} (hcurrent : '\n' ∉ current)
    (hline : line ∈ linesFrom current text) {c : Char} (hc : c ∈ line) :
    c ≠ '\n' ∧ (c ∈ current ∨ c ∈ text) := by
  induction text generalizing current with
  | nil =>
    rw [linesFrom] at hline
    split at hline
    · cases hline
    · rw [List.mem_singleton] at hline
      have hmem : c ∈ current := List.mem_reverse.mp (hline ▸ hc)
      exact ⟨ne_of_mem_of_not_mem hmem hcurrent, Or.inl hmem⟩
  | cons d rest ih =>
    rw [linesFrom] at hline
    split at hline
    · rcases List.mem_cons.mp hline with rfl | hline
      · have hmem : c ∈ current := by
          have hchomp : c ∈ chomp current.reverse := by rwa [chomp, List.reverse_reverse]
          exact List.mem_reverse.mp (chomp_subset _ hchomp)
        exact ⟨ne_of_mem_of_not_mem hmem hcurrent, Or.inl hmem⟩
      · obtain ⟨hbreak, hmem⟩ := ih List.not_mem_nil hline
        exact ⟨hbreak, Or.inr (List.mem_cons_of_mem d (hmem.resolve_left List.not_mem_nil))⟩
    · rename_i hd
      obtain ⟨hbreak, hmem⟩ :=
        ih (List.not_mem_cons_of_ne_of_not_mem (Ne.symm hd) hcurrent) hline
      refine ⟨hbreak, ?_⟩
      simp only [List.mem_cons] at hmem ⊢
      tauto

theorem newline_not_mem_of_mem_lines {text line : List Char} (hline : line ∈ lines text) :
    '\n' ∉ line :=
  fun hbreak => (mem_of_mem_linesFrom List.not_mem_nil hline hbreak).1 rfl

theorem subset_of_mem_lines {text line : List Char} (hline : line ∈ lines text) : line ⊆ text :=
  fun _ hc => (mem_of_mem_linesFrom List.not_mem_nil hline hc).2.resolve_left List.not_mem_nil

/-! ### Carriage returns -/

theorem newline_not_mem_map_chomp {raw : List (List Char)} (hraw : ∀ line ∈ raw, '\n' ∉ line) :
    ∀ line ∈ raw.map chomp, '\n' ∉ line := by
  intro line hline hmem
  obtain ⟨rawLine, hrawLine, rfl⟩ := List.mem_map.mp hline
  exact hraw rawLine hrawLine (chomp_subset rawLine hmem)

/-- A carriage return stands in front of a line feed at the end of the first line or later. -/
theorem return_infix_append_newline {line : List Char} (hline : '\n' ∉ line) (rest : List Char) :
    ['\r', '\n'] <:+: line ++ '\n' :: rest ↔
      line.getLast? = some '\r' ∨ ['\r', '\n'] <:+: rest := by
  induction line with
  | nil =>
    rw [List.nil_append, List.infix_cons_iff, List.getLast?_nil]
    simp
  | cons c line ih =>
    rw [List.cons_append, List.infix_cons_iff, ih (List.not_mem_of_not_mem_cons hline)]
    cases line with
    | nil => simp [eq_comm]
    | cons d line =>
      have hd : '\n' ≠ d := List.ne_of_not_mem_cons (List.not_mem_of_not_mem_cons hline)
      rw [List.getLast?_cons_cons, List.cons_append]
      simp [hd]

theorem return_infix_unlines {raw : List (List Char)} (hraw : ∀ line ∈ raw, '\n' ∉ line) :
    ['\r', '\n'] <:+: unlines raw ↔ ∃ line ∈ raw, line.getLast? = some '\r' := by
  induction raw with
  | nil => simp
  | cons line raw ih =>
    obtain ⟨hline, hraw⟩ := List.forall_mem_cons.mp hraw
    rw [unlines_cons, return_infix_append_newline hline, ih hraw, List.exists_mem_cons_iff]

/-- Cutting gives the raw lines if and only if no carriage return stands in front of a line feed. -/
theorem map_chomp_eq_self_iff {raw : List (List Char)} (hraw : ∀ line ∈ raw, '\n' ∉ line) :
    raw.map chomp = raw ↔ ¬ ['\r', '\n'] <:+: unlines raw := by
  have hself : raw.map chomp = raw ↔ ∀ line ∈ raw, chomp line = line := by
    nth_rewrite 2 [← List.map_id raw]
    exact List.map_inj_left
  rw [return_infix_unlines hraw, hself]
  simp only [chomp_eq_self_iff, not_exists, not_and, ne_eq]

/-! ### White space around a line -/

/-- The second text is the first one without the white space at both ends. -/
structure Trimmed (line text : List Char) : Prop where
  around : ∃ before after, line = before ++ text ++ after ∧
    ∀ c ∈ before ++ after, isSpace c = true
  starts : ∀ c ∈ text.head?, isSpace c = false
  ends : ∀ c ∈ text.getLast?, isSpace c = false

theorem trimEnd_eq_rdropWhile (text : List Char) : trimEnd text = text.rdropWhile isSpace :=
  rfl

theorem trim_eq_nil_iff {line : List Char} : trim line = [] ↔ ∀ c ∈ line, isSpace c = true := by
  rw [trim, trimEnd_eq_rdropWhile, List.rdropWhile_eq_nil_iff, trimStart]
  refine ⟨fun h => ?_, fun h c hc => h c (List.dropWhile_sublist isSpace |>.mem hc)⟩
  rw [← List.takeWhile_append_dropWhile (p := isSpace) (l := line)]
  exact List.forall_mem_append.mpr ⟨fun _ => List.mem_takeWhile_imp, h⟩

/-- Trimming a line takes away the white space at both ends. -/
theorem trimmed_trim (line : List Char) : Trimmed line (trim line) where
  around := by
    refine ⟨line.takeWhile isSpace, (trimStart line).rtakeWhile isSpace, ?_, ?_⟩
    · rw [trim, trimEnd_eq_rdropWhile, List.append_assoc, List.rdropWhile_append_rtakeWhile,
        trimStart, List.takeWhile_append_dropWhile]
    · exact List.forall_mem_append.mpr
        ⟨fun _ => List.mem_takeWhile_imp, fun _ => List.mem_rtakeWhile_imp⟩
  starts := by
    intro c hc
    -- what is left of a text has the same first character
    have hstart : (trimStart line).head? = some c := by
      obtain ⟨rest, hrest⟩ := List.head?_eq_some_iff.mp hc
      obtain ⟨after, hafter⟩ := List.rdropWhile_prefix isSpace (trimStart line)
      rw [← trimEnd_eq_rdropWhile, ← trim, hrest] at hafter
      rw [← hafter]
      rfl
    have hhead := List.head?_dropWhile_not isSpace line
    rw [trimStart] at hstart
    rw [hstart] at hhead
    exact hhead
  ends := by
    intro c hc
    obtain ⟨hne, rfl⟩ := List.mem_getLast?_eq_getLast hc
    exact Bool.eq_false_iff.mpr (List.rdropWhile_last_not isSpace (trimStart line) hne)

/-- A line has one text without white space at both ends. -/
theorem Trimmed.eq_trim {line text : List Char} (h : Trimmed line text) : text = trim line := by
  obtain ⟨before, after, rfl, hspaces⟩ := h.around
  obtain ⟨hbefore, hafter⟩ := List.forall_mem_append.mp hspaces
  by_cases hempty : text = []
  · subst hempty
    rw [List.append_nil]
    exact (trim_eq_nil_iff.mpr hspaces).symm
  · have hstart : trimStart (before ++ text ++ after) = text ++ after := by
      rw [trimStart, List.append_assoc, List.dropWhile_append_of_pos hbefore]
      obtain ⟨c, rest, rfl⟩ := List.exists_cons_of_ne_nil hempty
      rw [List.cons_append, List.dropWhile_cons_of_neg (Bool.eq_false_iff.mp (h.starts c rfl))]
    have hreverse : ∀ c ∈ after.reverse, isSpace c = true := fun c hc =>
      hafter c (List.mem_reverse.mp hc)
    have hlast : text.rdropWhile isSpace = text := by
      rw [List.rdropWhile_eq_self_iff]
      exact fun hne => Bool.eq_false_iff.mp (h.ends _ (List.getLast?_eq_getLast_of_ne_nil hne))
    rw [trim, hstart, trimEnd, List.reverse_append, List.dropWhile_append_of_pos hreverse]
    exact hlast.symm

theorem startsWith_iff {start text : List Char} :
    startsWith start text = true ↔ start <+: text := by
  unfold startsWith
  fun_induction afterStart? start text with
  | case1 text => simp
  | case2 c start => simp
  | case3 c start text ih => rw [ih, List.cons_prefix_cons, and_iff_right rfl]
  | case4 a start b text hne => simp [List.cons_prefix_cons, hne]

end GlslShrink.Text
