import GlslShrink.Proofs.Renaming.CaptureFree

/-!
Names that link the stages. A global of the interface of both stages is selected in both or in
neither, and so is a structure of both stages that types the interface of one of them
(`has_iff_of_interface`, `has_iff_of_struct`). Where it is selected, the vertex stage has chosen a
short name by the time the fragment stage starts, which takes it over; so both stages end with one
name (`image_eq_of_linked`). All other short names of the fragment stage have numbers that the
vertex stage did not reach.
-/

set_option autoImplicit false

namespace GlslShrink

theorem Stage.forall_iff {P : Stage → Prop} : (∀ stage, P stage) ↔ P .vertex ∧ P .fragment := by
  constructor
  · intro h
    exact ⟨h .vertex, h .fragment⟩
  · rintro ⟨hvertex, hfragment⟩ stage
    cases stage with
    | vertex => exact hvertex
    | fragment => exact hfragment

theorem Stage.exists_iff {P : Stage → Prop} : (∃ stage, P stage) ↔ P .vertex ∨ P .fragment := by
  constructor
  · rintro ⟨stage, h⟩
    cases stage with
    | vertex => exact Or.inl h
    | fragment => exact Or.inr h
  · rintro (h | h)
    · exact ⟨.vertex, h⟩
    · exact ⟨.fragment, h⟩

namespace VariableNames

variable {aggressive : Bool} {census : Stage → Census} {name : String} {stage : Stage}

/-! ### What the stages select -/

theorem mem_pinnedInterface {census : Census} :
    name ∈ pinnedInterface census aggressive ↔
      name ∈ census.interface ∧ name ∉ census.renamableVariables aggressive :=
  NameSet.mem_without

/-- A variable is selected if it can be renamed in its own stage and, where it belongs to the
interface, in every stage. -/
theorem mem_selected_variables :
    name ∈ ((plan aggressive (census .vertex) (census .fragment)).selection stage).variableNames ↔
      name ∈ (census stage).renamableVariables aggressive ∧
        ∀ other, name ∈ (census other).interface →
          name ∈ (census other).renamableVariables aggressive := by
  have hpinned : (∀ other, name ∈ (census other).interface →
      name ∈ (census other).renamableVariables aggressive) ↔
        name ∉ (pinnedInterface (census .vertex) aggressive).union
          (pinnedInterface (census .fragment) aggressive) := by
    rw [Stage.forall_iff, NameSet.mem_union, mem_pinnedInterface, mem_pinnedInterface]
    tauto
  rw [hpinned, ← NameSet.mem_without]
  cases stage <;> rfl

theorem pinsStruct_iff {census : Census} :
    pinsStruct census name = true ↔ name ∈ census.structs ∧ name ∉ census.renamableStructs := by
  simp [pinsStruct]

theorem mem_interfaceStructs :
    name ∈ (plan aggressive (census .vertex) (census .fragment)).interfaceStructs ↔
      ∃ stage, name ∈ (census stage).interfaceStructs := by
  rw [Stage.exists_iff]
  exact NameSet.mem_union

/-- A structure of the interface is selected if it can be renamed in its own stage and in every
stage that has it, unless the interface is spared. -/
theorem mem_selected_structs (hinterface : ∃ stage, name ∈ (census stage).interfaceStructs) :
    name ∈ ((plan aggressive (census .vertex) (census .fragment)).selection stage).structs ↔
      name ∈ (census stage).renamableStructs ∧ aggressive = true ∧
        ∀ other, name ∈ (census other).structs → name ∈ (census other).renamableStructs := by
  have hmem : name ∈ (plan aggressive (census .vertex) (census .fragment)).interfaceStructs :=
    mem_interfaceStructs.mpr hinterface
  have hpinned : (aggressive = true ∧ ∀ other, name ∈ (census other).structs →
      name ∈ (census other).renamableStructs) ↔
        name ∉ pinnedStructs aggressive (census .vertex) (census .fragment)
          (plan aggressive (census .vertex) (census .fragment)).interfaceStructs := by
    rw [Stage.forall_iff, pinnedStructs, List.mem_filter, Bool.or_eq_true, Bool.or_eq_true,
      Bool.not_eq_true', pinsStruct_iff, pinsStruct_iff, ← Bool.not_eq_true]
    tauto
  rw [hpinned, ← NameSet.mem_without]
  cases stage <;> rfl

/-- A global of the interface of both stages is selected in both or in neither. -/
theorem has_iff_of_interface (hname : ∀ stage, name ∈ (census stage).interface)
    (hvariable : ∀ stage, name ∈ (census stage).variableNames) :
    ((plan aggressive (census .vertex) (census .fragment)).selection stage).Has name ↔
      ∀ other, name ∈ (census other).renamableVariables aggressive := by
  have hstruct : name ∉
      ((plan aggressive (census .vertex) (census .fragment)).selection stage).structs :=
    fun h => ((chosen_plan aggressive census stage).structs h).2.1 (hvariable stage)
  rw [Selection.Has, or_iff_left hstruct, mem_selected_variables]
  exact ⟨fun h other => h.2 other (hname other), fun h => ⟨h stage, fun other _ => h other⟩⟩

/-- A structure of both stages that types the interface of one of them is selected in both or in
neither. -/
theorem has_iff_of_struct (hname : ∀ stage, name ∈ (census stage).structs)
    (hinterface : ∃ stage, name ∈ (census stage).interfaceStructs) :
    ((plan aggressive (census .vertex) (census .fragment)).selection stage).Has name ↔
      aggressive = true ∧ ∀ other, name ∈ (census other).renamableStructs := by
  have hvariable : name ∉
      ((plan aggressive (census .vertex) (census .fragment)).selection stage).variableNames :=
    fun h => ((chosen_plan aggressive census stage).variableNames h).2.1 (hname stage)
  rw [Selection.Has, or_iff_right hvariable, mem_selected_structs hinterface]
  constructor
  · rintro ⟨-, hmode, hall⟩
    exact ⟨hmode, fun other => hall other (hname other)⟩
  · rintro ⟨hmode, hall⟩
    exact ⟨hall stage, hmode, fun other _ => hall other⟩

/-! ### What the stages end with -/

variable {program compiled : Program} {names : Stage → Generator}

/-- A name of the interface that is selected in both stages or in neither ends with one name. -/
theorem image_eq_of_linked (h : StagesRenamed aggressive census program names compiled)
    (hgrammar : ∀ stage, (program.tree stage).Grammatical)
    (hcensus : ∀ stage, Census.ofNode (program.tree stage) = .ok (census stage))
    (hname : name ∈ (census .vertex).interface ++
      (plan aggressive (census .vertex) (census .fragment)).interfaceStructs)
    (hiff : ((plan aggressive (census .vertex) (census .fragment)).selection .vertex).Has name ↔
      ((plan aggressive (census .vertex) (census .fragment)).selection .fragment).Has name) :
    (names .vertex).shortened.image name = (names .fragment).shortened.image name := by
  have hvertex := h.tree .vertex
  have hfragment := h.tree .fragment
  by_cases hhas :
      ((plan aggressive (census .vertex) (census .fragment)).selection .vertex).Has name
  · obtain ⟨short, hshort⟩ := (hvertex.has_iff (hgrammar .vertex) (hcensus .vertex)
      (chosen_plan aggressive census .vertex) name).mp hhas
    have htaken := find?_takenOver.mpr ⟨hname, hshort⟩
    have hkept : (names .fragment).shortened.find? name = some short :=
      hfragment.grows.keeps (find?_starting.mpr ⟨hiff.mp hhas, htaken⟩)
    rw [NameMap.image_of_find? hshort, NameMap.image_of_find? hkept]
  · rw [image_of_not_has hvertex.domain hhas, image_of_not_has hfragment.domain (mt hiff.mpr hhas)]

/-- A short name of the fragment stage that was not taken over is none of the vertex stage. -/
theorem find?_vertex_ne (h : StagesRenamed aggressive census program names compiled)
    {short : String} (hfind : (names .fragment).shortened.find? name = some short)
    (hnew : (takenOver aggressive census (names .vertex) .fragment).find? name = none)
    (other : String) : (names .vertex).shortened.find? other ≠ some short := by
  intro hother
  rcases (h.tree .vertex).grows.numbered hother with hstart | ⟨i, -, hlow, hi⟩
  · exact absurd hstart find?_starting_vertex
  rcases (h.tree .fragment).grows.numbered hfind with hstart | ⟨j, hhigh, -, hj⟩
  · have htaken := (find?_starting.mp hstart).2
    rw [hnew] at htaken
    cases htaken
  · rw [starting, generator_nextIndex, firstIndex] at hhigh
    have hsame := hi.unique hj
    omega

end VariableNames

open VariableNames

/-- The names that both stages have to agree on, and those that have to stay apart. -/
structure Linked (aggressive : Bool) (census : Stage → Census) (names : Stage → Generator) :
    Prop where
  /-- A global of the interface of both stages has one name. -/
  interface : ∀ {name}, (∀ stage, name ∈ (census stage).interface) →
    (names .vertex).shortened.image name = (names .fragment).shortened.image name
  /-- A structure of both stages that types the interface of one of them has one name. -/
  structs : ∀ {name}, (∀ stage, name ∈ (census stage).structs) →
    (∃ stage, name ∈ (census stage).interfaceStructs) →
    (names .vertex).shortened.image name = (names .fragment).shortened.image name
  /-- A short name that the fragment stage chose itself is none of the vertex stage. -/
  apart : ∀ {name short}, (names .fragment).shortened.find? name = some short →
    (exports (census .vertex) (plan aggressive (census .vertex) (census .fragment)).interfaceStructs
      (names .vertex)).find? name = none →
    ∀ other, (names .vertex).shortened.find? other ≠ some short

/-- The renaming of variables in either mode, on a program that was read, succeeds and keeps the
stages linked: the trees carry the published names, and these agree where they have to. -/
theorem renameVariables_linked {program : Program}
    (hread : ∀ stage, ∃ source, parse source stage.startRule = .ok (program.tree stage))
    (aggressive : Bool) (outputs : StepOutputs) :
    ∃ (census : Stage → Census) (names : Stage → Generator) (compiled : Program),
      (∀ stage, Census.ofNode (program.tree stage) = .ok (census stage)) ∧
      (Steps.renameVariables aggressive).perform outputs program =
        (.ok (some (.renamed ⟨(names .vertex).nextIndex, (names .fragment).nextIndex,
          (names .vertex).shortened, (names .fragment).shortened⟩)), compiled) ∧
      (∀ stage, (compiled.tree stage).sameShape ((program.tree stage).relabel
        (spelling (census stage).variableNames (census stage).structs (names stage).shortened) 0) =
          true) ∧
      Linked aggressive census names := by
  obtain ⟨hgrammar, census, hcensus⟩ := exists_census hread
  obtain ⟨names, compiled, hrun, hstages⟩ :=
    renameVariables_run aggressive hgrammar hcensus outputs
  refine ⟨census, names, compiled, hcensus, hrun, hstages.relabelled, fun {name} hname => ?_,
    fun {name} hname hinterface => ?_, find?_vertex_ne hstages⟩
  · have hvariable : ∀ stage, name ∈ (census stage).variableNames := fun stage =>
      Census.mem_variableNames_of_interface (hgrammar stage) (hcensus stage) (hname stage)
    refine image_eq_of_linked hstages hgrammar hcensus (List.mem_append_left _ (hname .vertex)) ?_
    rw [has_iff_of_interface hname hvariable, has_iff_of_interface hname hvariable]
  · refine image_eq_of_linked hstages hgrammar hcensus
      (List.mem_append_right _ (mem_interfaceStructs.mpr hinterface)) ?_
    rw [has_iff_of_struct hname hinterface, has_iff_of_struct hname hinterface]

/-- A uniform of a structure that both stages define, a varying, and a variable of each stage. -/
theorem renameVariables_linked_uniform :
    ∃ program, Program.read "struct L{vec3 d;};uniform L l;varying float v;void main(){float x=v;}"
        "struct L{vec3 d;};uniform L l;varying float v;void main(){vec3 y=l.d*v;}" = .ok program ∧
      ∃ (census : Stage → Census) (names : Stage → Generator) (compiled : Program),
        (∀ stage, Census.ofNode (program.tree stage) = .ok (census stage)) ∧
        (Steps.renameVariables true).perform {} program =
          (.ok (some (.renamed ⟨(names .vertex).nextIndex, (names .fragment).nextIndex,
            (names .vertex).shortened, (names .fragment).shortened⟩)), compiled) ∧
        (∀ stage, (compiled.tree stage).sameShape ((program.tree stage).relabel
          (spelling (census stage).variableNames (census stage).structs (names stage).shortened)
            0) = true) ∧
        Linked true census names := by
  have hok : (Program.read
      "struct L{vec3 d;};uniform L l;varying float v;void main(){float x=v;}"
      "struct L{vec3 d;};uniform L l;varying float v;void main(){vec3 y=l.d*v;}").toOption.any
        (fun _ => true) = true := by
    decide +kernel
  obtain ⟨program, hread, -⟩ := exists_ok_of_any hok
  exact ⟨program, hread, renameVariables_linked (Program.exists_source hread) true {}⟩

end GlslShrink
