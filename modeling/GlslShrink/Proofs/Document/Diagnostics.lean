import GlslShrink.CommandLine
import GlslShrink.Proofs.Document.RoundTrip
import GlslShrink.Proofs.Reading.Errors
import GlslShrink.Proofs.Traversal.Laws

/-!
What is reported about a document names a place in its file. A section is a run of lines of the
file, right after the marker of its stage (`Document.IsSection`), and the source of the stage is
made of these lines. An error of the stage is a place inside one of the lines or the end of the
source, so its line and column, with the lines of the file before the section added, are a place in
the file (`Document.diagnostic_in_file`).
-/

set_option autoImplicit false

namespace GlslShrink

open Text

/-! ### Places in a text of lines -/

namespace Text

variable {lines : List (List Char)} {front rest : List Char}

/-- A place is inside a line or at the end. -/
theorem unlines_eq_append (h : unlines lines = front ++ rest) :
    (∃ i seen unseen, lines[i]? = some (seen ++ unseen) ∧ front = unlines (lines.take i) ++ seen) ∨
      front = unlines lines ∧ rest = [] := by
  induction lines generalizing front with
  | nil =>
    obtain ⟨rfl, rfl⟩ := List.append_eq_nil_iff.mp h.symm
    exact Or.inr ⟨rfl, rfl⟩
  | cons line lines ih =>
    rw [unlines_cons] at h
    rcases List.append_eq_append_iff.mp h with ⟨more, hfront, hmore⟩ | ⟨unseen, hline, -⟩
    · cases more with
      | nil =>
        rw [List.append_nil] at hfront
        exact Or.inl ⟨0, line, [], by rw [List.append_nil]; rfl, hfront⟩
      | cons c more =>
        injection hmore with hc hmore
        subst hc
        rcases ih hmore with ⟨i, seen, unseen, hi, hseen⟩ | ⟨hend, hrest⟩
        · refine Or.inl ⟨i + 1, seen, unseen, hi, ?_⟩
          rw [hfront, hseen, List.take_succ_cons, unlines_cons, List.append_assoc, List.cons_append]
        · exact Or.inr ⟨by rw [hfront, hend, unlines_cons], hrest⟩
    · exact Or.inl ⟨0, front, unseen, by rw [← hline]; rfl, rfl⟩

theorem filter_newline_eq_nil {line : List Char} (h : '\n' ∉ line) :
    line.filter (· == '\n') = [] := by
  rw [List.filter_eq_nil_iff]
  intro c hc hnewline
  exact h (beq_iff_eq.mp hnewline ▸ hc)

theorem length_filter_newline_unlines (h : ∀ line ∈ lines, '\n' ∉ line) :
    ((unlines lines).filter (· == '\n')).length = lines.length := by
  induction lines with
  | nil => rfl
  | cons line lines ih =>
    obtain ⟨hline, hlines⟩ := List.forall_mem_cons.mp h
    rw [unlines_cons, List.filter_append, filter_newline_eq_nil hline, List.nil_append,
      List.filter_cons_of_pos rfl, List.length_cons, ih hlines, List.length_cons]

/-- The characters after the last line feed are those of the line that has not ended. -/
theorem takeWhile_reverse_unlines_append (lines : List (List Char)) {line : List Char}
    (h : '\n' ∉ line) : (unlines lines ++ line).reverse.takeWhile (· != '\n') = line.reverse := by
  have hline : ∀ c ∈ line.reverse, (c != '\n') = true := by
    intro c hc
    rw [bne_iff_ne]
    rintro rfl
    exact h (List.mem_reverse.mp hc)
  rw [List.reverse_append, List.takeWhile_append_of_pos hline]
  rcases List.eq_nil_or_concat lines with rfl | ⟨others, last, rfl⟩
  · exact List.append_nil _
  · rw [List.concat_eq_append, unlines_append, unlines_cons, unlines_nil, List.reverse_append,
      List.reverse_append]
    exact List.append_nil _

theorem splitOn_unlines (h : ∀ line ∈ lines, '\n' ∉ line) :
    (unlines lines).splitOn '\n' = lines ++ [[]] := by
  have hjoined : unlines lines = ['\n'].intercalate (lines ++ [[]]) := by
    induction lines with
    | nil => rfl
    | cons line lines ih =>
      obtain ⟨next, others, hothers⟩ := List.exists_cons_of_ne_nil
        (List.append_ne_nil_of_right_ne_nil lines (List.cons_ne_nil ([] : List Char) []))
      rw [unlines_cons, ih (List.forall_mem_cons.mp h).2, List.cons_append, hothers,
        List.intercalate_cons_cons, List.append_assoc, List.singleton_append]
  rw [hjoined, List.splitOn_intercalate]
  · intro line hline
    rcases List.mem_append.mp hline with hline | hline
    · exact h line hline
    · rw [List.mem_singleton.mp hline]
      exact List.not_mem_nil
  · exact List.append_ne_nil_of_right_ne_nil _ (List.cons_ne_nil _ _)

end Text

namespace ReadError

/-- Going back to the position of a place gives what stands in front of it. -/
theorem before?_byteLength (front rest : List Char) :
    before? (byteLength front) (front ++ rest) = some front := by
  induction front with
  | nil =>
    cases rest with
    | nil => rfl
    | cons c rest => exact if_pos rfl
  | cons c front ih =>
    have hpos : c.utf8Size + byteLength front ≠ 0 :=
      Nat.ne_of_gt (Nat.add_pos_left c.utf8Size_pos _)
    rw [List.cons_append, byteLength, before?, if_neg hpos, if_pos (Nat.le_add_right _ _),
      Nat.add_sub_cancel_left, ih, Option.map_some]

theorem At.lineColumn_eq {source : String} {front rest : List Char} {error : ReadError}
    (h : At source.toList rest error) (hsource : source.toList = front ++ rest) :
    error.lineColumn source = ((front.filter (· == '\n')).length + 1,
      (front.reverse.takeWhile (· != '\n')).length + 1) := by
  rw [hsource] at h
  simp only [lineColumn, h.position_eq, hsource, before?_byteLength, Option.getD_some]

end ReadError

/-! ### Sections -/

namespace Document

/-- The source of a stage. -/
def source (document : Document) : Stage → String
  | .vertex => document.vertex
  | .fragment => document.fragment

/-- The section of a stage among the lines of a text. It starts after the first line that marks the
stage; the one of the vertex stage ends at the first line that marks the fragment stage, the other
one at the end. -/
structure IsSection (text : String) (stage : Stage) (before : List (List Char)) (mark : List Char)
    (body after : List (List Char)) : Prop where
  lined : Lined text.toList (before ++ mark :: (body ++ after))
  marked : MarksStage stage mark
  first : ∀ line ∈ before, ¬ MarksStage stage line
  ending : (stage = .fragment ∧ after = []) ∨
    stage = .vertex ∧ (∀ line ∈ body, ¬ MarksStage .fragment line) ∧
      ∃ next later, after = next :: later ∧ MarksStage .fragment next

section Sections

variable {text : String} {stage : Stage} {document : Document} {before body after : List (List Char)}
  {mark : List Char}

theorem eq_of_isMarker {other : Stage} (h : isMarker stage mark = true)
    (hother : isMarker other mark = true) : stage = other := by
  have hsame : stage.marker.toList = other.marker.toList :=
    (beq_iff_eq.mp h).symm.trans (beq_iff_eq.mp hother)
  cases stage <;> cases other
  · rfl
  · exact absurd hsame (by decide)
  · exact absurd hsame (by decide)
  · rfl

/-- The lines from the first marker of a stage on. -/
theorem drop_markerIndex? {lines : List (List Char)} {i : Nat}
    (h : markerIndex? lines stage = some i) :
    i < lines.length ∧ (∀ line ∈ lines.take i, isMarker stage line = false) ∧
      ∃ mark, isMarker stage mark = true ∧ lines.drop i = mark :: lines.drop (i + 1) := by
  obtain ⟨hi, hmark, hbefore⟩ := List.findIdx?_eq_some_iff_getElem.mp h
  refine ⟨hi, fun line hline => ?_, lines[i], hmark, List.drop_eq_getElem_cons hi⟩
  obtain ⟨j, hj, rfl⟩ := List.mem_take_iff_getElem.mp hline
  exact Bool.eq_false_iff.mpr (hbefore j (by omega))

theorem IsSection.lines_eq (h : IsSection text stage before mark body after) :
    lines text.toList = before ++ mark :: (body ++ after) :=
  h.lined.eq_lines.symm

theorem isSection_of_lines (hlines : lines text.toList = before ++ mark :: (body ++ after))
    (hmark : isMarker stage mark = true) (hfirst : ∀ line ∈ before, isMarker stage line = false)
    (hending : (stage = .fragment ∧ after = []) ∨
      stage = .vertex ∧ (∀ line ∈ body, isMarker .fragment line = false) ∧
        ∃ next later, after = next :: later ∧ isMarker .fragment next = true) :
    IsSection text stage before mark body after := by
  simp only [isMarker_iff, isMarker_eq_false_iff] at hmark hfirst hending
  exact ⟨hlines ▸ lined_lines _, hmark, hfirst, hending⟩

theorem IsSection.lineOffset_eq (h : IsSection text stage before mark body after) :
    lineOffset text stage = before.length + 1 := by
  have hindex : markerIndex? (lines text.toList) stage = some before.length := by
    have hnone : ∀ line ∈ before, isMarker stage line = false := fun line hline =>
      isMarker_eq_false_iff.mpr (h.first line hline)
    rw [markerIndex?, h.lines_eq, List.findIdx?_append, List.findIdx?_eq_none_iff.mpr hnone,
      List.findIdx?_cons, if_pos (isMarker_iff.mpr h.marked)]
    simp
  rw [lineOffset, hindex]

/-- Every accepted text has a section for each stage, of whose lines the source is made. -/
theorem exists_section (h : split text = .ok document) (stage : Stage) :
    ∃ before mark body after, IsSection text stage before mark body after ∧
      document.source stage = joinLines body := by
  cases hlocate : locate (lines text.toList) with
  | error error =>
    simp only [split, hlocate, bind, Except.bind] at h
    cases h
  | ok found =>
    obtain ⟨vertexAt, fragmentAt⟩ := found
    simp only [split, hlocate, bind, Except.bind, pure, Except.pure] at h
    cases h
    obtain ⟨hvertex, hfragment, hle⟩ := markerIndex?_of_locate hlocate
    obtain ⟨-, hvertexFirst, vertexMark, hvertexMark, hvertexDrop⟩ := drop_markerIndex? hvertex
    obtain ⟨hfragmentAt, hfragmentFirst, fragmentMark, hfragmentMark, hfragmentDrop⟩ :=
      drop_markerIndex? hfragment
    cases stage with
    | fragment =>
      refine ⟨_, fragmentMark, _, [], isSection_of_lines ?_ hfragmentMark hfragmentFirst
        (Or.inl ⟨rfl, rfl⟩), rfl⟩
      rw [List.append_nil, ← hfragmentDrop, List.take_append_drop]
    | vertex =>
      -- no line marks both stages
      have hlt : vertexAt < fragmentAt := by
        refine Nat.lt_of_le_of_ne hle fun hsame => ?_
        subst hsame
        rw [hvertexDrop] at hfragmentDrop
        injection hfragmentDrop with hmarks
        rw [← hmarks] at hfragmentMark
        cases eq_of_isMarker hvertexMark hfragmentMark
      refine ⟨_, vertexMark, _, (lines text.toList).drop fragmentAt, isSection_of_lines ?_
        hvertexMark hvertexFirst (Or.inr ⟨rfl, fun line hline =>
          hfragmentFirst line (List.mem_of_mem_drop hline), fragmentMark, _, hfragmentDrop,
          hfragmentMark⟩), rfl⟩
      have hlength : vertexAt + 1 ≤ ((lines text.toList).take fragmentAt).length := by
        rw [List.length_take]
        omega
      rw [← List.drop_append_of_le_length hlength, List.take_append_drop, ← hvertexDrop,
        List.take_append_drop]

/-- A line of a section is a line of the text. -/
theorem IsSection.getElem? (h : IsSection text stage before mark body after) {i : Nat}
    {line : List Char} (hline : body[i]? = some line) :
    (lines text.toList)[i + lineOffset text stage]? = some line := by
  have hi := (List.getElem?_eq_some_iff.mp hline).1
  rw [h.lineOffset_eq, h.lines_eq, List.getElem?_append_right (by omega),
    show i + (before.length + 1) - before.length = i + 1 by omega, List.getElem?_cons_succ,
    List.getElem?_append_left hi, hline]

theorem IsSection.newline_not_mem (h : IsSection text stage before mark body after) :
    ∀ line ∈ body, '\n' ∉ line := by
  intro line hline
  have hmem : line ∈ lines text.toList := by
    rw [h.lines_eq]
    exact List.mem_append_right _ (List.mem_cons_of_mem _ (List.mem_append_left _ hline))
  exact newline_not_mem_of_mem_lines hmem

end Sections

/-! ### Errors in a section -/

theorem parse_empty (stage : Stage) : parse "" stage.startRule = .ok (.shader []) := by
  have hshader : ∀ isFragment, Source.shader [] isFragment = .ok (.shader []) := by
    intro isFragment
    rw [Source.shader, Token.skipBlank, Source.topLevels]
    rfl
  cases stage with
  | vertex => exact hshader false
  | fragment => exact hshader true

/-- An empty source can be read, so a source that cannot has the lines of its section. -/
theorem toList_of_parse_error {source : String} {stage : Stage} {body : List (List Char)}
    {error : ReadError} (hsource : source = joinLines body)
    (h : parse source stage.startRule = .error error) : source.toList = unlines body := by
  refine (eq_of_joinLines hsource.symm ?_).2
  rintro rfl
  cases (parse_empty stage).symm.trans h

/-- A place in a text of lines, by line and column: inside of a line, or after the last one. -/
theorem lineColumn_of_unlines {source : String} {body : List (List Char)} {error : ReadError}
    {rest : List Char} (hsource : source.toList = unlines body)
    (hbody : ∀ line ∈ body, '\n' ∉ line) (hat : ReadError.At source.toList rest error) :
    (∃ i line column, body[i]? = some line ∧ column ≤ line.length ∧
      error.lineColumn source = (i + 1, column + 1)) ∨
    error.position = source.utf8ByteSize ∧ error.lineColumn source = (body.length + 1, 1) := by
  obtain ⟨front, hfront, hposition⟩ := hat.exists_front
  have hplace := hat.lineColumn_eq hfront
  rcases unlines_eq_append (hsource.symm.trans hfront) with
    ⟨i, seen, unseen, hline, hseen⟩ | ⟨hend, hrest⟩
  · have hnewline : '\n' ∉ seen := fun hmem =>
      hbody _ (List.mem_of_getElem? hline) (List.mem_append_left _ hmem)
    have hi := (List.getElem?_eq_some_iff.mp hline).1
    refine Or.inl ⟨i, seen ++ unseen, seen.length, hline, ?_, ?_⟩
    · rw [List.length_append]
      exact Nat.le_add_right _ _
    · rw [hplace, hseen, takeWhile_reverse_unlines_append _ hnewline, List.length_reverse,
        List.filter_append, filter_newline_eq_nil hnewline, List.append_nil,
        length_filter_newline_unlines fun line hmem => hbody line (List.mem_of_mem_take hmem),
        List.length_take, Nat.min_eq_left (Nat.le_of_lt hi)]
  · have htail := takeWhile_reverse_unlines_append body (List.not_mem_nil (a := '\n'))
    rw [List.append_nil] at htail
    refine Or.inr ⟨?_, ?_⟩
    · rw [hposition, ← byteLength_eq_utf8ByteSize, hfront, hrest, List.append_nil]
    · rw [hplace, hend, htail, length_filter_newline_unlines hbody]
      rfl

/-- The report on a document of which a stage cannot be read. The vertex stage is read first. -/
theorem compileDocument_of_parse_error {text : String} {document : Document} {stage : Stage}
    {error : ReadError} (hsplit : split text = .ok document)
    (herror : parse (document.source stage) stage.startRule = .error error)
    (hfirst : stage = .vertex ∨ ∃ tree, parse document.vertex Stage.vertex.startRule = .ok tree)
    (path : String) (options : Options) :
    CommandLine.compileDocument path text options =
      { status := 1
        err := CommandLine.diagnostic ⟨path, document.source stage, lineOffset text stage⟩ error ++
          "\n" } := by
  cases stage with
  | vertex =>
    have hcompile : compile document.vertex document.fragment options =
        .error (.unreadable .vertex error) := by
      simp only [source] at herror
      simp only [compile, Program.read, Stage.read, herror]
      rfl
    simp only [CommandLine.compileDocument, hsplit, CommandLine.compileSources, hcompile, source]
  | fragment =>
    obtain ⟨tree, htree⟩ := hfirst.resolve_left Stage.noConfusion
    have hcompile : compile document.vertex document.fragment options =
        .error (.unreadable .fragment error) := by
      simp only [source] at herror
      simp only [compile, Program.read, Stage.read, htree, herror]
      rfl
    simp only [CommandLine.compileDocument, hsplit, CommandLine.compileSources, hcompile, source]

/-- What is reported about a stage of a document names a place in the file: with the lines in front
of the section added, the line of the error is that line of the file, and its column is in that line
or right after it. An error after the last line is at the end of the source, and named by the line
after the section. -/
theorem diagnostic_in_file {text : String} {document : Document} {stage : Stage}
    {error : ReadError} {line column : Nat} (hsplit : split text = .ok document)
    (herror : parse (document.source stage) stage.startRule = .error error)
    (hplace : error.lineColumn (document.source stage) = (line, column)) :
    (∃ before mark body after, IsSection text stage before mark body after ∧
      document.source stage = joinLines body ∧ lineOffset text stage = before.length + 1 ∧
      (line ≤ body.length → ∃ content,
        (lines text.toList)[line + lineOffset text stage - 1]? = some content ∧
        ((document.source stage).toList.splitOn '\n')[line - 1]? = some content ∧
        1 ≤ line ∧ 1 ≤ column ∧ column ≤ content.length + 1) ∧
      (body.length < line → error.position = (document.source stage).utf8ByteSize ∧
        line + lineOffset text stage = lineOffset text stage + body.length + 1 ∧ column = 1)) ∧
    ∀ path options,
      (stage = .vertex ∨ ∃ tree, parse document.vertex Stage.vertex.startRule = .ok tree) →
      CommandLine.compileDocument path text options =
        { status := 1
          err := path ++ ":" ++ toString (line + lineOffset text stage) ++ ":" ++ toString column ++
            ": " ++ error.complaint.message ++ "\n" } := by
  refine ⟨?_, fun path options hfirst => ?_⟩
  · obtain ⟨before, mark, body, after, hsection, hsource⟩ := exists_section hsplit stage
    have htext := toList_of_parse_error hsource herror
    have hbody := hsection.newline_not_mem
    obtain ⟨rest, hat⟩ := parse_error_at herror
    refine ⟨before, mark, body, after, hsection, hsource, hsection.lineOffset_eq, ?_⟩
    rcases lineColumn_of_unlines htext hbody hat with
      ⟨i, content, width, hline, hwidth, hinside⟩ | ⟨hposition, hend⟩
    · cases hplace.symm.trans hinside
      have hi := (List.getElem?_eq_some_iff.mp hline).1
      refine ⟨fun _ => ⟨content, ?_, ?_, Nat.succ_pos i, Nat.succ_pos width,
        Nat.succ_le_succ hwidth⟩, fun hafter => absurd hafter (Nat.not_lt_of_le hi)⟩
      · rw [← hsection.getElem? hline, Nat.add_right_comm, Nat.add_sub_cancel]
      · rw [htext, splitOn_unlines hbody, Nat.add_sub_cancel, List.getElem?_append_left hi, hline]
    · cases hplace.symm.trans hend
      exact ⟨fun hinside => absurd hinside (Nat.not_succ_le_self _),
        fun _ => ⟨hposition, by omega, rfl⟩⟩
  · rw [compileDocument_of_parse_error hsplit herror hfirst]
    simp only [CommandLine.diagnostic, hplace]

/-- A file with an empty first line, a blank after a marker and carriage returns. -/
def misspelled : String :=
  "\n//! VERTEX \r\nvoid main(){}\r\n//! FRAGMENT\nfloat a;\r\nfloat;\n"

/-- The second line of the fragment stage, which is the sixth one of the file, declares no name. -/
theorem diagnostic_in_file_misspelled :
    split misspelled = .ok ⟨"void main(){}\n", "float a;\nfloat;\n"⟩ ∧
      parse "float a;\nfloat;\n" Stage.fragment.startRule =
        .error ⟨.unexpected (some ";"), 14⟩ ∧
      (lines misspelled.toList)[5]? = some "float;".toList ∧
      CommandLine.compileDocument "shader.glsl" misspelled {} =
        { status := 1, err := "shader.glsl:6:6: unexpected ';'\n" } := by
  have hsplit : split misspelled = .ok ⟨"void main(){}\n", "float a;\nfloat;\n"⟩ := by rfl
  have herror : parse "float a;\nfloat;\n" Stage.fragment.startRule =
      .error ⟨.unexpected (some ";"), 14⟩ := parse_of_errorOf? (by decide +kernel)
  have hplace : (⟨.unexpected (some ";"), 14⟩ : ReadError).lineColumn "float a;\nfloat;\n" =
      (2, 6) := by decide +kernel
  have hvertex : ∃ tree, parse "void main(){}\n" Stage.vertex.startRule = .ok tree := by
    have hok : (parse "void main(){}\n" Stage.vertex.startRule).toOption.any (fun _ => true) =
        true := by decide +kernel
    obtain ⟨tree, htree, -⟩ := exists_ok_of_any hok
    exact ⟨tree, htree⟩
  have hreport := (@diagnostic_in_file _ _ .fragment _ _ _ hsplit herror hplace).2 "shader.glsl" {}
    (Or.inr hvertex)
  exact ⟨hsplit, herror, by decide +kernel, hreport.trans (by decide +kernel)⟩

end Document

end GlslShrink
