import GlslShrink.Proofs.Document.RoundTrip
import GlslShrink.Proofs.Pipeline.Idempotence
import GlslShrink.Proofs.Printing.Lines

/-!
A compiled program is read back from its document. What is printed has lines that are no markers and
do not end with a carriage return, and it is no empty line (`Document.stored_render`); directives
may stand in it anywhere and say whatever they like. This does not ask that the stages can be read
as shaders again.
-/

set_option autoImplicit false

namespace GlslShrink

open Text

namespace Document

/-! ### Printed sources -/

/-- The source as it comes back from a document, with its last line ended. -/
def stored (source : String) : String :=
  if source = "" ∨ source.toList.getLast? = some '\n' then source else source ++ "\n"

theorem toList_stored (source : String) :
    (stored source).toList = if source.toList = [] then [] else ended source.toList := by
  by_cases hempty : source = ""
  · rw [hempty]
    rfl
  · have hchars : source.toList ≠ [] := fun hnil => hempty (String.toList_inj.mp hnil)
    rw [if_neg hchars, stored, ended]
    by_cases hlast : source.toList.getLast? = some '\n'
    · rw [if_pos (Or.inr hlast), if_pos hlast]
    · rw [if_neg (not_or.mpr ⟨hempty, hlast⟩), if_neg hlast, String.toList_append]
      rfl

/-- A document has the same text if its sources are stored first. -/
theorem toText_stored (document : Document) :
    toText ⟨stored document.vertex, stored document.fragment⟩ = document.toText := by
  have hended : ∀ source, ended (stored source).toList = ended source.toList := by
    intro source
    rw [toList_stored]
    split
    · rename_i hempty
      rw [hempty]
    · exact ended_of_getLast? (getLast?_ended _)
  simp only [toText, sectionText, hended]

theorem stored_ne_newline {source : String} (h : source ≠ "\n") : stored source ≠ "\n" := by
  unfold stored
  split
  · exact h
  · rename_i hopen
    intro hstored
    rw [← String.toList_inj, String.toList_append] at hstored
    have hempty : source.toList = [] := List.append_left_eq_self.mp hstored
    exact hopen (Or.inl (String.toList_inj.mp hempty))

/-- What tidy pieces write is stored as printed lines. -/
theorem exists_lines_stored {pieces : List Piece} (h : Piece.Tidy pieces) :
    ∃ lines, (stored (String.ofList (Piece.write none pieces))).toList = unlines lines ∧
      ∀ line ∈ lines, PrintedLine line := by
  obtain ⟨done, rest, htext, hdone, hrest⟩ :=
    Piece.exists_lines_write h tokenLine_nil (Or.inl rfl : Piece.EndsLine none [])
  rw [List.nil_append] at htext
  rw [toList_stored, String.toList_ofList, htext]
  by_cases hopen : rest = []
  · -- the last line is ended, or nothing was written
    subst hopen
    refine ⟨done, ?_, hdone⟩
    rw [List.append_nil]
    split
    · exact ‹unlines done = []›.symm
    · rename_i hne
      refine ended_of_getLast? (getLast?_unlines ?_)
      rintro rfl
      exact hne rfl
  · have hlast : (unlines done ++ rest).getLast? ≠ some '\n' := by
      intro hlast
      rw [List.getLast?_append_of_ne_nil _ hopen] at hlast
      exact hrest.not_mem rfl (by decide) (List.mem_of_getLast? hlast)
    refine ⟨done ++ [rest], ?_, ?_⟩
    · rw [if_neg (by simp [hopen]), ended, if_neg hlast, unlines_append, unlines_cons, unlines_nil,
        List.append_assoc]
    · exact List.forall_mem_append.mpr ⟨hdone, List.forall_mem_singleton.mpr (Or.inl hrest)⟩

section Printed

variable {source : String} {printed : List (List Char)}
  (hprinted : ∀ line ∈ printed, PrintedLine line) (hsource : source.toList = unlines printed)

include hprinted

theorem no_return_before_newline : ¬ ['\r', '\n'] <:+: unlines printed := by
  rw [return_infix_unlines fun line hline => (hprinted line hline).newline_not_mem]
  rintro ⟨line, hline, hreturn⟩
  exact (hprinted line hline).getLast?_ne_return hreturn

include hsource

theorem storable_of_printed (hne : source ≠ "\n") : Storable source := by
  by_cases hempty : printed = []
  · rw [hempty] at hsource
    exact Or.inl (String.toList_inj.mp hsource)
  · refine Or.inr ⟨?_, hne, ?_⟩
    · rw [hsource]
      exact getLast?_unlines hempty
    · rw [hsource]
      exact no_return_before_newline hprinted

theorem unmarked_of_printed : Unmarked source := by
  have hbreak : ∀ line ∈ printed, '\n' ∉ line := fun line hline =>
    (hprinted line hline).newline_not_mem
  intro line hline
  rw [hsource, lines_unlines hbreak,
    (map_chomp_eq_self_iff hbreak).mpr (no_return_before_newline hprinted)] at hline
  exact (hprinted line hline).trimEnd_ne_marker

end Printed

/-- A shader is stored, and none of its lines is a marker. -/
theorem stored_render {root : Node} (h : root.Grammatical) (htag : root.tag = .shader)
    {separator : String} (hseparator : separator = "" ∨ separator = "\n") :
    Storable (stored (root.render separator)) ∧ Unmarked (stored (root.render separator)) := by
  obtain ⟨printed, hsource, hprinted⟩ := exists_lines_stored (h.tidy_pieces hseparator)
  exact ⟨storable_of_printed hprinted hsource (stored_ne_newline (h.render_ne_newline htag _)),
    unmarked_of_printed hprinted hsource⟩

end Document

/-! ### Compiled programs -/

theorem Program.accepted_of_compile {vertex fragment : String} {options : Options}
    {compiled : Program} {outputs : StepOutputs}
    (h : compile vertex fragment options = .ok (compiled, outputs)) : compiled.Accepted false := by
  obtain ⟨program, hread⟩ := exists_read_of_compile h
  obtain ⟨_, _, hrun, _, _, _, hcourse⟩ :=
    options.exists_course (Program.accepted_of_read hread)
  cases hrun.symm.trans (run_of_compile hread h)
  exact hcourse.compiled

/-- The document of a compiled program, with or without line feeds between its declarations, is read
back: each stage comes back as it was printed, with its last line ended if there is one. -/
theorem split_document_of_compile {vertex fragment separator : String} {options : Options}
    {compiled : Program} {outputs : StepOutputs}
    (hcompile : compile vertex fragment options = .ok (compiled, outputs))
    (hseparator : separator = "" ∨ separator = "\n") :
    Document.split (compiled.document separator).toText =
      .ok ⟨Document.stored (compiled.render .vertex separator),
        Document.stored (compiled.render .fragment separator)⟩ := by
  have haccepted := Program.accepted_of_compile hcompile
  have hstored : ∀ stage : Stage,
      Document.Storable (Document.stored (compiled.render stage separator)) ∧
        Document.Unmarked (Document.stored (compiled.render stage separator)) := fun stage =>
    Document.stored_render (haccepted stage).grammatical (haccepted stage).tag hseparator
  rw [← Document.toText_stored]
  exact Document.split_toText_of_storable (hstored .vertex).1 (hstored .fragment).1
    (hstored .vertex).2

/-- A directive that ends like the marker of the fragment stage, directives inside of a function,
and a stage without declarations. -/
theorem split_document_of_compile_directives :
    ∃ compiled outputs,
      compile "#define A //! FRAGMENT \nvoid main()\x7b\n#ifdef A\nx=-(-!y);\n#endif\n\x7d" "" {} =
        .ok (compiled, outputs) ∧
      ("\n" = "" ∨ "\n" = "\n") ∧
      (compiled.document "\n").toText =
        "//! VERTEX\n#define A //! FRAGMENT\nvoid main()\x7b\n#ifdef A\nx=- -!y;\n#endif\n\x7d\n" ++
          "//! FRAGMENT\n\n" ∧
      Document.split (compiled.document "\n").toText =
        .ok ⟨Document.stored (compiled.render .vertex "\n"),
          Document.stored (compiled.render .fragment "\n")⟩ := by
  have hok : (compile
      "#define A //! FRAGMENT \nvoid main()\x7b\n#ifdef A\nx=-(-!y);\n#endif\n\x7d" ""
      {}).toOption.any (fun result => (result.1.document "\n").toText ==
        "//! VERTEX\n#define A //! FRAGMENT\nvoid main()\x7b\n#ifdef A\nx=- -!y;\n#endif\n\x7d\n" ++
          "//! FRAGMENT\n\n") = true := by
    decide +kernel
  obtain ⟨⟨compiled, outputs⟩, hcompile, htext⟩ := exists_ok_of_any hok
  exact ⟨compiled, outputs, hcompile, Or.inr rfl, beq_iff_eq.mp htext,
    split_document_of_compile hcompile (Or.inr rfl)⟩

end GlslShrink
