import GlslShrink.Proofs.Renaming.Stages

/-!
Renaming without capture. On shaders that were read, the renaming of variables that spares the
interface succeeds and changes nothing but the spelling of the selected names, which stay different
from each other and from all names that are kept (`renameVariables_captureFree`). The aggressive
renaming gives the fragment stage short names that were chosen in the vertex stage; they can meet
names that the fragment stage keeps, and the renaming is without clashes exactly when none does
(`renameVariables_injective_iff`).
-/

set_option autoImplicit false

namespace GlslShrink

/-! ### Programs that were read -/

theorem Stage.parse_of_read {stage : Stage} {source : String} {tree : Node}
    (h : stage.read source = .ok tree) : parse source stage.startRule = .ok tree := by
  unfold Stage.read at h
  split at h
  · rename_i read hread
    rw [hread, Except.ok.inj h]
  · cases h

theorem Program.parse_of_read {vertex fragment : String} {program : Program}
    (h : Program.read vertex fragment = .ok program) :
    parse vertex Stage.vertex.startRule = .ok program.vertex ∧
      parse fragment Stage.fragment.startRule = .ok program.fragment := by
  rw [Program.read] at h
  cases hvertex : Stage.vertex.read vertex with
  | error error =>
    rw [hvertex] at h
    cases h
  | ok vertexTree =>
    cases hfragment : Stage.fragment.read fragment with
    | error error =>
      rw [hvertex, hfragment] at h
      cases h
    | ok fragmentTree =>
      rw [hvertex, hfragment] at h
      cases h
      exact ⟨Stage.parse_of_read hvertex, Stage.parse_of_read hfragment⟩

theorem Program.read_of_parse {vertex fragment : String} {tree tree' : Node}
    (hvertex : parse vertex Stage.vertex.startRule = .ok tree)
    (hfragment : parse fragment Stage.fragment.startRule = .ok tree') :
    Program.read vertex fragment = .ok ⟨tree, tree', []⟩ := by
  simp only [Program.read, Stage.read, hvertex, hfragment, bind, Except.bind]
  rfl

theorem Program.exists_source {vertex fragment : String} {program : Program}
    (h : Program.read vertex fragment = .ok program) (stage : Stage) :
    ∃ source, parse source stage.startRule = .ok (program.tree stage) := by
  cases stage with
  | vertex => exact ⟨vertex, (Program.parse_of_read h).1⟩
  | fragment => exact ⟨fragment, (Program.parse_of_read h).2⟩

/-! ### Running a step -/

namespace Steps

variable {α : Type} {program : Program}

theorem lift_run {result : Except Fault α} {a : α} (h : result = .ok a) :
    lift result program = (.ok a, program) := by
  rw [h]
  rfl

theorem onStage_run {pass : Node → Except Fault (Change × α)} {stage : Stage} {change : Change}
    {a : α} (h : pass (program.tree stage) = .ok (change, a)) :
    onStage pass stage program =
      (.ok a, program.setTree stage (change.result (program.tree stage))) := by
  have hget : (get : Action Program Program) program = (.ok program, program) := rfl
  rw [onStage, run_bind hget, run_bind (lift_run h)]
  rfl

end Steps

/-- The short names that a renaming gave in a stage. -/
def Renaming.names (names : Renaming) : Stage → NameMap String
  | .vertex => names.vertex
  | .fragment => names.fragment

namespace VariableNames

variable {aggressive : Bool} {census : Stage → Census}

/-- The short names that a stage takes over, given the names of the vertex stage. -/
def takenOver (aggressive : Bool) (census : Stage → Census) (vertexNames : Generator) :
    Stage → NameMap String
  | .vertex => []
  | .fragment =>
    exports (census .vertex) (plan aggressive (census .vertex) (census .fragment)).interfaceStructs
      vertexNames

/-- Where the numbering of a stage starts, given the names of the vertex stage. -/
def firstIndex (vertexNames : Generator) : Stage → Nat
  | .vertex => 0
  | .fragment => vertexNames.nextIndex

/-- The generator that a stage starts with: the fragment stage has the short names that it takes
over, and goes on from the number that the vertex stage stopped at. -/
def starting (aggressive : Bool) (census : Stage → Census) (vertexNames : Generator)
    (stage : Stage) : Generator :=
  generator ((plan aggressive (census .vertex) (census .fragment)).selection stage)
    (firstIndex vertexNames stage) (takenOver aggressive census vertexNames stage)
    (census .vertex) (census .fragment)

/-- What the renaming of both stages one after the other gives: the generators afterwards and the
new trees. -/
structure StagesRenamed (aggressive : Bool) (census : Stage → Census) (program : Program)
    (names : Stage → Generator) (compiled : Program) : Prop where
  tree : ∀ stage, RenamedTree
    ((plan aggressive (census .vertex) (census .fragment)).selection stage)
    (starting aggressive census (names .vertex) stage) (program.tree stage) (compiled.tree stage)
    (names stage)
  ends : ∀ stage, ∃ change,
    rename ((plan aggressive (census .vertex) (census .fragment)).selection stage)
      (starting aggressive census (names .vertex) stage) (program.tree stage) =
        .ok (change, names stage)

/-- On well-formed trees the renaming of variables succeeds in both stages, one after the other. -/
theorem renameVariables_run (aggressive : Bool) {program : Program}
    (hgrammar : ∀ stage, (program.tree stage).Grammatical)
    (hcensus : ∀ stage, Census.ofNode (program.tree stage) = .ok (census stage))
    (outputs : StepOutputs) :
    ∃ (names : Stage → Generator) (compiled : Program),
      (Steps.renameVariables aggressive).perform outputs program =
        (.ok (some (.renamed ⟨(names .vertex).nextIndex, (names .fragment).nextIndex,
          (names .vertex).shortened, (names .fragment).shortened⟩)), compiled) ∧
      StagesRenamed aggressive census program names compiled := by
  let chosen := plan aggressive (census .vertex) (census .fragment)
  obtain ⟨change, names, hrename, hvertex⟩ :=
    rename_generator chosen.vertex 0 [] (census .vertex) (census .fragment) (hgrammar .vertex) []
      nofun nofun
  let handed := exports (census .vertex) chosen.interfaceStructs names
  obtain ⟨change', names', hrename', hfragment⟩ :=
    rename_generator chosen.fragment names.nextIndex handed (census .vertex) (census .fragment)
      (hgrammar .fragment) names.shortened (fun entry hentry => (mem_exports hentry).2)
      hvertex.proper.injective
  let middle := program.setTree .vertex (change.result program.vertex)
  let compiled := middle.setTree .fragment (change'.result program.fragment)
  have hget : (get : Action Program Program) program = (.ok program, program) := rfl
  have hvertexCensus : Census.ofNode program.vertex = .ok (census .vertex) := hcensus .vertex
  have hfragmentCensus : Census.ofNode program.fragment = .ok (census .fragment) :=
    hcensus .fragment
  have hvertexRun : Steps.onStage (rename chosen.vertex (generator chosen.vertex 0 []
      (census .vertex) (census .fragment))) .vertex program = (.ok names, middle) :=
    Steps.onStage_run hrename
  have hfragmentRun : Steps.onStage (rename chosen.fragment (generator chosen.fragment
      names.nextIndex handed (census .vertex) (census .fragment))) .fragment middle =
        (.ok names', compiled) :=
    Steps.onStage_run hrename'
  let both : Stage → Generator
    | .vertex => names
    | .fragment => names'
  refine ⟨both, compiled, ?_, ⟨fun stage => ?_, fun stage => ?_⟩⟩
  · simp only [Steps.renameVariables]
    rw [run_bind hget, run_bind (Steps.lift_run hvertexCensus),
      run_bind (Steps.lift_run hfragmentCensus), run_bind hvertexRun, run_bind hfragmentRun]
    rfl
  · cases stage with
    | vertex => exact hvertex
    | fragment => exact hfragment
  · cases stage with
    | vertex => exact ⟨change, hrename⟩
    | fragment => exact ⟨change', hrename'⟩

theorem takenOver_values {vertexNames : Generator} {stage : Stage} {entry : String × String}
    (hentry : entry ∈ takenOver aggressive census vertexNames stage) :
    vertexNames.shortened.find? entry.1 = some entry.2 := by
  cases stage with
  | vertex => cases hentry
  | fragment => exact (mem_exports hentry).2

/-- The short names that the fragment stage takes over: those of interface variables and structures
of the interface, chosen in the vertex stage. -/
theorem find?_takenOver {vertexNames : Generator} {name short : String} :
    (takenOver aggressive census vertexNames .fragment).find? name = some short ↔
      name ∈ (census .vertex).interface ++
          (plan aggressive (census .vertex) (census .fragment)).interfaceStructs ∧
        vertexNames.shortened.find? name = some short := by
  constructor
  · intro hfind
    exact mem_exports (NameMap.mem_of_find? hfind)
  · rintro ⟨hname, hfind⟩
    exact find?_exports hname hfind

/-- A stage starts with the short names that it takes over, as far as it selects them. -/
theorem find?_starting {vertexNames : Generator} {stage : Stage} {name short : String} :
    (starting aggressive census vertexNames stage).shortened.find? name = some short ↔
      ((plan aggressive (census .vertex) (census .fragment)).selection stage).Has name ∧
        (takenOver aggressive census vertexNames stage).find? name = some short :=
  find?_generator fun _ => takenOver_values

theorem find?_starting_vertex {vertexNames : Generator} {name short : String} :
    (starting aggressive census vertexNames .vertex).shortened.find? name ≠ some short := by
  intro hfind
  cases (find?_starting.mp hfind).2

/-- A stage starts with the short names that it takes over and all names that it keeps in use. -/
theorem mem_used_starting_iff {vertexNames : Generator} {stage : Stage} {name : String} :
    name ∈ (starting aggressive census vertexNames stage).used ↔
      (∃ symbol, (starting aggressive census vertexNames stage).shortened.find? symbol =
          some name) ∨
        (name ∈ (census .vertex).names ∨ name ∈ (census .fragment).names) ∧
          ¬((plan aggressive (census .vertex) (census .fragment)).selection stage).Has name :=
  mem_used_iff fun _ => takenOver_values

theorem mem_kept_used {vertexNames : Generator} (stage : Stage) :
    ∀ name ∈ (census stage).names,
      ¬((plan aggressive (census .vertex) (census .fragment)).selection stage).Has name →
      name ∈ (starting aggressive census vertexNames stage).used := by
  intro name hname hkept
  refine mem_used_starting_iff.mpr (Or.inr ⟨?_, hkept⟩)
  cases stage with
  | vertex => exact Or.inl hname
  | fragment => exact Or.inr hname

/-- The trees of each stage differ only in the spelling of variables and structures. -/
theorem StagesRenamed.relabelled {program compiled : Program} {names : Stage → Generator}
    (h : StagesRenamed aggressive census program names compiled) (stage : Stage) :
    (compiled.tree stage).sameShape ((program.tree stage).relabel
      (spelling (census stage).variableNames (census stage).structs (names stage).shortened) 0) =
        true := by
  rw [Node.sameShape_iff, (h.tree stage).relabelled,
    (chosen_plan aggressive census stage).spelling_eq (h.tree stage).domain]

/-! ### Sparing the interface -/

section Sparing

variable {name : String}

theorem not_interface_of_has {stage : Stage}
    (hinterface : ∀ name ∈ (census stage).interface, name ∈ (census stage).variableNames)
    (hname : ((plan false (census .vertex) (census .fragment)).selection stage).Has name) :
    name ∉ (census stage).interface := by
  intro hmem
  rcases hname with hname | hname
  · have hrenamable : name ∈ (census stage).renamableVariables false := by
      cases stage <;> exact (NameSet.mem_without.mp hname).1
    have hspared := (List.mem_filter.mp hrenamable).2
    rw [Bool.false_or, List.contains_iff_mem.mpr hmem] at hspared
    cases hspared
  · exact ((chosen_plan false census stage).structs hname).2.1 (hinterface name hmem)

theorem not_interfaceStruct_of_struct {stage : Stage}
    (hname : name ∈ ((plan false (census .vertex) (census .fragment)).selection stage).structs) :
    name ∉ (plan false (census .vertex) (census .fragment)).interfaceStructs := by
  intro hmem
  have hpinned : name ∈ pinnedStructs false (census .vertex) (census .fragment)
      (plan false (census .vertex) (census .fragment)).interfaceStructs :=
    List.mem_filter.mpr ⟨hmem, rfl⟩
  cases stage <;> exact (NameSet.mem_without.mp hname).2 hpinned

theorem mem_structs_of_interfaceStruct
    (hname : name ∈ (plan aggressive (census .vertex) (census .fragment)).interfaceStructs) :
    ∃ stage, name ∈ (census stage).structs := by
  rcases NameSet.mem_union.mp hname with hname | hname
  · exact ⟨.vertex, List.contains_iff_mem.mp (List.mem_filter.mp hname).2⟩
  · exact ⟨.fragment, List.contains_iff_mem.mp (List.mem_filter.mp hname).2⟩

/-- No name of the interface that one stage renames is renamed in both. -/
theorem not_handedOver
    (hinterface : ∀ name ∈ (census .vertex).interface, name ∈ (census .vertex).variableNames)
    (hname : name ∈ (census .vertex).interface ++
      (plan false (census .vertex) (census .fragment)).interfaceStructs) :
    ¬∀ stage, ((plan false (census .vertex) (census .fragment)).selection stage).Has name := by
  intro hhas
  rcases List.mem_append.mp hname with hname | hname
  · exact not_interface_of_has hinterface (hhas .vertex) hname
  · -- As a structure of the interface it could only be selected as a variable, in every stage.
    have hvariable := fun stage =>
      (hhas stage).resolve_right fun hstruct => not_interfaceStruct_of_struct hstruct hname
    obtain ⟨stage, hstruct⟩ := mem_structs_of_interfaceStruct hname
    exact ((chosen_plan false census stage).variableNames (hvariable stage)).2.1 hstruct

theorem find?_starting_sparing {program compiled : Program} {names : Stage → Generator}
    (h : StagesRenamed false census program names compiled)
    (hinterface : ∀ name ∈ (census .vertex).interface, name ∈ (census .vertex).variableNames)
    {stage : Stage} {short : String} :
    (starting false census (names .vertex) stage).shortened.find? name ≠ some short := by
  cases stage with
  | vertex => exact find?_starting_vertex
  | fragment =>
    intro hfind
    obtain ⟨hhas, hfind⟩ := find?_starting.mp hfind
    obtain ⟨hname, hvertex⟩ := find?_takenOver.mp hfind
    refine not_handedOver hinterface hname fun stage => ?_
    cases stage with
    | vertex => exact (h.tree .vertex).domain hvertex
    | fragment => exact hhas

end Sparing

end VariableNames

/-! ### The two modes -/

/-- The second tree comes from the first one by a renaming that keeps names apart: the map, extended
by the identity, is injective on the names of the tree, uses no reserved word, spares interface,
functions and directives, and the trees differ only in the spelling of variables and structures. -/
structure CaptureFree (census : Census) (names : NameMap String) (old new : Node) : Prop where
  injective : names.InjectiveOn census.names
  unreserved : ∀ {name short}, names.find? name = some short → Word.isReserved short = false
  spares : ∀ {name short}, names.find? name = some short →
    name ∉ census.interface ∧ name ∉ census.functions ∧ name ∉ census.directiveWords
  relabelled : new.sameShape
    (old.relabel (VariableNames.spelling census.variableNames census.structs names) 0) = true

section Modes

open VariableNames

variable {census : Stage → Census} {program compiled : Program} {names : Stage → Generator}

theorem captureFree_of_sparing (h : StagesRenamed false census program names compiled)
    (hgrammar : ∀ stage, (program.tree stage).Grammatical)
    (hcensus : ∀ stage, Census.ofNode (program.tree stage) = .ok (census stage)) (stage : Stage) :
    CaptureFree (census stage) (names stage).shortened (program.tree stage)
      (compiled.tree stage) := by
  have hinterface : ∀ stage, ∀ name ∈ (census stage).interface,
      name ∈ (census stage).variableNames := fun stage name =>
    Census.mem_variableNames_of_interface (hgrammar stage) (hcensus stage)
  have hchosen := chosen_plan false census stage
  have hrenamed := h.tree stage
  have hfresh : ∀ name short,
      (starting false census (names .vertex) stage).shortened.find? name ≠ some short :=
    fun name short => find?_starting_sparing h (hinterface .vertex)
  refine ⟨?_, fun hfind => ?_, fun hfind => ?_, h.relabelled stage⟩
  · rw [hrenamed.injective_iff (hgrammar stage) (hcensus stage) hchosen (mem_kept_used stage)]
    exact fun name short hfind => absurd hfind (hfresh name short)
  · rcases hrenamed.grows.fresh hfind with hstart | ⟨-, hreserved, -⟩
    · exact absurd hstart (hfresh _ _)
    · exact hreserved
  · have hhas := hrenamed.domain hfind
    exact ⟨not_interface_of_has (hinterface stage) hhas,
      hhas.elim (fun h => (hchosen.variableNames h).2.2) (fun h => (hchosen.structs h).2.2)⟩

theorem grammatical_of_parse {stage : Stage} {source : String} {tree : Node}
    (h : parse source stage.startRule = .ok tree) : tree.Grammatical := by
  cases stage with
  | vertex => exact (Source.shader_sound h).2.1.imp fun _ hnode => hnode.1
  | fragment => exact (Source.shader_sound h).2.1.imp fun _ hnode => hnode.1

theorem exists_census
    (hread : ∀ stage, ∃ source, parse source stage.startRule = .ok (program.tree stage)) :
    (∀ stage, (program.tree stage).Grammatical) ∧
      ∃ census : Stage → Census, ∀ stage,
        Census.ofNode (program.tree stage) = .ok (census stage) := by
  have hgrammar : ∀ stage, (program.tree stage).Grammatical := fun stage => by
    obtain ⟨source, hsource⟩ := hread stage
    exact grammatical_of_parse hsource
  exact ⟨hgrammar, _, fun stage => Census.ofNode_eq (hgrammar stage).fitsLayout⟩

/-- The renaming of variables that spares the interface, on a program that was read: it succeeds, is
free of capture in both stages, and renames exactly the selected names. -/
theorem renameVariables_captureFree
    (hread : ∀ stage, ∃ source, parse source stage.startRule = .ok (program.tree stage))
    (outputs : StepOutputs) :
    ∃ (census : Stage → Census) (names : Renaming) (compiled : Program),
      (∀ stage, Census.ofNode (program.tree stage) = .ok (census stage)) ∧
      (Steps.renameVariables false).perform outputs program =
        (.ok (some (.renamed names)), compiled) ∧
      ∀ stage,
        CaptureFree (census stage) (names.names stage) (program.tree stage)
          (compiled.tree stage) ∧
        ∀ name, (names.names stage).contains name = true ↔
          ((plan false (census .vertex) (census .fragment)).selection stage).Has name := by
  obtain ⟨hgrammar, census, hcensus⟩ := exists_census hread
  obtain ⟨names, compiled, hrun, hstages⟩ :=
    renameVariables_run false hgrammar hcensus outputs
  refine ⟨census, _, compiled, hcensus, hrun, fun stage => ?_⟩
  have hfree := captureFree_of_sparing hstages hgrammar hcensus stage
  have hiff := fun name => ((hstages.tree stage).has_iff (hgrammar stage) (hcensus stage)
    (chosen_plan false census stage) name).symm
  cases stage with
  | vertex => exact ⟨hfree, fun name => (NameMap.contains_iff _ _).trans (hiff name)⟩
  | fragment => exact ⟨hfree, fun name => (NameMap.contains_iff _ _).trans (hiff name)⟩

end Modes

/-- A variable `b` in one stage and a function `b` in the other, a structure in one stage and a
variable of the same name in the other. -/
theorem renameVariables_captureFree_bothRoles :
    ∃ program, Program.read "uniform float u;struct S{float a;};S g;void main(){float b=u;}"
        "void b(){}void main(){int S;}" = .ok program ∧
      ∃ (census : Stage → Census) (names : Renaming) (compiled : Program),
        (∀ stage, Census.ofNode (program.tree stage) = .ok (census stage)) ∧
        (Steps.renameVariables false).perform {} program =
          (.ok (some (.renamed names)), compiled) ∧
        ∀ stage,
          CaptureFree (census stage) (names.names stage) (program.tree stage)
            (compiled.tree stage) ∧
          ∀ name, (names.names stage).contains name = true ↔
            ((VariableNames.plan false (census .vertex) (census .fragment)).selection stage).Has
              name := by
  have hok : (Program.read "uniform float u;struct S{float a;};S g;void main(){float b=u;}"
      "void b(){}void main(){int S;}").toOption.any (fun _ => true) = true := by decide +kernel
  obtain ⟨program, hread, -⟩ := exists_ok_of_any hok
  exact ⟨program, hread, renameVariables_captureFree (Program.exists_source hread) {}⟩

section Handover

open VariableNames

variable {program : Program}

/-- The renaming of variables in either mode, on a program that was read: it succeeds, no two names
of a stage get the same short name, and the vertex stage keeps all its names apart. The fragment
stage does so if and only if every short name that it takes over from the vertex stage, where it is
a name of the fragment stage, is renamed there itself. -/
theorem renameVariables_injective_iff
    (hread : ∀ stage, ∃ source, parse source stage.startRule = .ok (program.tree stage))
    (aggressive : Bool) (outputs : StepOutputs) :
    ∃ (census : Stage → Census) (names : Renaming) (compiled : Program),
      (∀ stage, Census.ofNode (program.tree stage) = .ok (census stage)) ∧
      (Steps.renameVariables aggressive).perform outputs program =
        (.ok (some (.renamed names)), compiled) ∧
      (∀ stage a b short, (names.names stage).find? a = some short →
        (names.names stage).find? b = some short → a = b) ∧
      names.vertex.InjectiveOn (census .vertex).names ∧
      (names.fragment.InjectiveOn (census .fragment).names ↔
        ∀ name short,
          name ∈ (census .vertex).interface ++
            (plan aggressive (census .vertex) (census .fragment)).interfaceStructs →
          names.vertex.find? name = some short → names.fragment.contains name = true →
          short ∈ (census .fragment).names → names.fragment.contains short = true) := by
  obtain ⟨hgrammar, census, hcensus⟩ := exists_census hread
  obtain ⟨names, compiled, hrun, hstages⟩ := renameVariables_run aggressive hgrammar hcensus outputs
  have hvertex := hstages.tree .vertex
  have hfragment := hstages.tree .fragment
  have hchosen := chosen_plan aggressive census
  have hhas := fun name => (NameMap.contains_iff (names .fragment).shortened name).trans
    (hfragment.has_iff (hgrammar .fragment) (hcensus .fragment) (hchosen .fragment) name).symm
  refine ⟨census, _, compiled, hcensus, hrun, ?_, ?_, ?_⟩
  · intro stage a b short
    cases stage with
    | vertex => exact hvertex.proper.injective
    | fragment => exact hfragment.proper.injective
  · refine (hvertex.injective_iff (hgrammar .vertex) (hcensus .vertex) (hchosen .vertex)
      (mem_kept_used .vertex)).mpr fun name short hfind => ?_
    exact absurd hfind find?_starting_vertex
  · refine (hfragment.injective_iff (hgrammar .fragment) (hcensus .fragment) (hchosen .fragment)
      (mem_kept_used .fragment)).trans (forall₂_congr fun name short => ?_)
    rw [find?_starting, find?_takenOver, hhas name, hhas short]
    exact ⟨fun h hname hfind hselected => h ⟨hselected, hname, hfind⟩,
      fun h ⟨hselected, hname, hfind⟩ => h hname hfind hselected⟩

end Handover

/-- A varying that both stages rename, next to a variable of the fragment stage. -/
theorem renameVariables_injective_iff_varying :
    ∃ program, Program.read "varying float v;void main(){float a=v;}"
        "varying float v;void main(){int b;}" = .ok program ∧
      ∃ (census : Stage → Census) (names : Renaming) (compiled : Program),
        (∀ stage, Census.ofNode (program.tree stage) = .ok (census stage)) ∧
        (Steps.renameVariables true).perform {} program =
          (.ok (some (.renamed names)), compiled) ∧
        (∀ stage a b short, (names.names stage).find? a = some short →
          (names.names stage).find? b = some short → a = b) ∧
        names.vertex.InjectiveOn (census .vertex).names ∧
        (names.fragment.InjectiveOn (census .fragment).names ↔
          ∀ name short,
            name ∈ (census .vertex).interface ++
              (VariableNames.plan true (census .vertex) (census .fragment)).interfaceStructs →
            names.vertex.find? name = some short → names.fragment.contains name = true →
            short ∈ (census .fragment).names → names.fragment.contains short = true) := by
  have hok : (Program.read "varying float v;void main(){float a=v;}"
      "varying float v;void main(){int b;}").toOption.any (fun _ => true) = true := by
    decide +kernel
  obtain ⟨program, hread, -⟩ := exists_ok_of_any hok
  exact ⟨program, hread, renameVariables_injective_iff (Program.exists_source hread) true {}⟩

/-- The short name `a` is free in the vertex stage, whose variable `a` is renamed as well; in the
fragment stage it is the name of a function. -/
theorem not_injective_takenOver :
    ∃ program, Program.read "varying float v;void main(){float a;}"
        "varying float v;void a(){}void main(){}" = .ok program ∧
      ∃ census names compiled, Census.ofNode program.fragment = .ok census ∧
        (Steps.renameVariables true).perform {} program =
          (.ok (some (.renamed names)), compiled) ∧
        ¬names.fragment.InjectiveOn census.names := by
  have hok : (Program.read "varying float v;void main(){float a;}"
      "varying float v;void a(){}void main(){}").toOption.any (fun program =>
        decide (((Steps.renameVariables true).perform {} program).1 =
          .ok (some (.renamed ⟨2, 2, [("v", "a"), ("a", "b")], [("v", "a")]⟩))) &&
        (Census.ofNode program.fragment).toOption.any
          (fun census => census.names.contains "v" && census.names.contains "a")) = true := by
    decide +kernel
  obtain ⟨program, hread, hclash⟩ := exists_ok_of_any hok
  rw [Bool.and_eq_true, decide_eq_true_eq] at hclash
  obtain ⟨census, hcensus, hnames⟩ := exists_ok_of_any hclash.2
  rw [Bool.and_eq_true, List.contains_iff_mem, List.contains_iff_mem] at hnames
  refine ⟨program, hread, census, _, _, hcensus, Prod.ext hclash.1 rfl, fun hinjective => ?_⟩
  have heq := hinjective "v" hnames.1 "a" hnames.2 (by decide)
  exact absurd heq (by decide)

end GlslShrink
