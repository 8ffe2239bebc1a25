import GlslShrink.Proofs.Pass.Counters
import GlslShrink.Proofs.Pipeline.Course

/-!
Compilation fails only if a source can not be read. Every tree that is read is well-shaped, on
well-shaped trees every selection of steps is scheduled and performed to the end, and no counter of
a step falls below zero on the way (`compile_ok_iff_reads`).
-/

set_option autoImplicit false

namespace GlslShrink

/-- What was read can be compiled. -/
theorem exists_compile {vertex fragment : String} {program : Program}
    (hread : Program.read vertex fragment = .ok program) (options : Options) :
    ∃ result, compile vertex fragment options = .ok result := by
  obtain ⟨outputs, compiled, hrun, -⟩ := options.exists_course (Program.accepted_of_read hread)
  refine ⟨(compiled, outputs), ?_⟩
  simp only [compile, hread, bind, Except.bind, hrun]
  rfl

/-- A compilation ends with the first source that can not be read, or succeeds. -/
theorem compile_cases (vertex fragment : String) (options : Options) :
    (∃ error, parse vertex Stage.vertex.startRule = .error error ∧
      compile vertex fragment options = .error (.unreadable .vertex error)) ∨
    (∃ tree error, parse vertex Stage.vertex.startRule = .ok tree ∧
      parse fragment Stage.fragment.startRule = .error error ∧
      compile vertex fragment options = .error (.unreadable .fragment error)) ∨
    ∃ tree tree' result, parse vertex Stage.vertex.startRule = .ok tree ∧
      parse fragment Stage.fragment.startRule = .ok tree' ∧
      compile vertex fragment options = .ok result := by
  cases hvertex : parse vertex Stage.vertex.startRule with
  | error error =>
    refine Or.inl ⟨error, rfl, ?_⟩
    simp only [compile, Program.read, Stage.read, hvertex, bind, Except.bind]
  | ok tree =>
    cases hfragment : parse fragment Stage.fragment.startRule with
    | error error =>
      refine Or.inr (Or.inl ⟨tree, error, rfl, rfl, ?_⟩)
      simp only [compile, Program.read, Stage.read, hvertex, hfragment, bind, Except.bind]
    | ok tree' =>
      obtain ⟨result, hcompile⟩ :=
        exists_compile (Program.read_of_parse hvertex hfragment) options
      exact Or.inr (Or.inr ⟨tree, tree', result, rfl, rfl, hcompile⟩)

/-- Sources are compiled, with whatever options, if and only if both can be read. If one can not,
the error is that of reading it, the vertex stage first; no step adds an error of its own. What is
read is well-shaped throughout, and on no tree does a counter of a step fall below zero. -/
theorem compile_ok_iff_reads (vertex fragment : String) (options : Options) :
    ((∃ result, compile vertex fragment options = .ok result) ↔
      (∃ tree, parse vertex Stage.vertex.startRule = .ok tree) ∧
        ∃ tree, parse fragment Stage.fragment.startRule = .ok tree) ∧
    (∀ error, parse vertex Stage.vertex.startRule = .error error →
      compile vertex fragment options = .error (.unreadable .vertex error)) ∧
    (∀ tree error, parse vertex Stage.vertex.startRule = .ok tree →
      parse fragment Stage.fragment.startRule = .error error →
        compile vertex fragment options = .error (.unreadable .fragment error)) ∧
    (∀ error, compile vertex fragment options = .error error →
      ∃ stage cause, error = .unreadable stage cause) ∧
    (∀ source rule tree, parse source rule = .ok tree →
      tree.Every (fun node => node.fitsLayout = true)) ∧
    ∀ root : Node, root.CountersStayAbove := by
  have hshaped : ∀ source rule tree, parse source rule = .ok tree →
      tree.Every (fun node => node.fitsLayout = true) := fun source rule tree hread =>
    Node.Grammatical.fitsLayout ((parse_formed hread).sound.imp fun _ hnode => hnode.1)
  have hcounters := Node.countersStayAbove
  rcases compile_cases vertex fragment options with
    ⟨error, hvertex, hcompile⟩ | ⟨tree, error, hvertex, hfragment, hcompile⟩ |
      ⟨tree, tree', result, hvertex, hfragment, hcompile⟩
  · simp only [hvertex, hcompile]
    refine ⟨?_, ?_, ?_, ?_, hshaped, hcounters⟩ <;> simp
  · simp only [hvertex, hfragment, hcompile]
    refine ⟨?_, ?_, ?_, ?_, hshaped, hcounters⟩ <;> simp
  · simp only [hvertex, hfragment, hcompile]
    refine ⟨?_, ?_, ?_, ?_, hshaped, hcounters⟩ <;> simp

/-- An attribute can not be declared in a fragment stage. -/
theorem compile_ok_iff_reads_attribute :
    ∃ tree error,
      parse "attribute vec4 p;void main(){{gl_Position=p;}}" Stage.vertex.startRule = .ok tree ∧
      parse "attribute vec4 p;void main(){}" Stage.fragment.startRule = .error error ∧
      compile "attribute vec4 p;void main(){{gl_Position=p;}}" "attribute vec4 p;void main(){}" {} =
        .error (.unreadable .fragment error) := by
  have hok : (parse "attribute vec4 p;void main(){{gl_Position=p;}}"
      Stage.vertex.startRule).toOption.any (fun _ => true) = true := by decide +kernel
  have herror : (parse "attribute vec4 p;void main(){}"
      Stage.fragment.startRule).toOption.isNone = true := by decide +kernel
  obtain ⟨tree, htree, -⟩ := exists_ok_of_any hok
  cases hparse : parse "attribute vec4 p;void main(){}" Stage.fragment.startRule with
  | ok other =>
    rw [hparse] at herror
    cases herror
  | error error =>
    exact ⟨tree, error, htree, rfl,
      (compile_ok_iff_reads _ _ {}).2.2.1 tree error htree hparse⟩

end GlslShrink
