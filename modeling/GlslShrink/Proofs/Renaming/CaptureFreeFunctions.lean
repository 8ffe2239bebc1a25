import GlslShrink.Proofs.Pass.Renaming
import GlslShrink.Proofs.Renaming.Requests

/-!
Renaming functions without capture. On a program that was read, or whose variables were renamed
after that, the renaming of functions succeeds whatever numbers it starts from. In each stage it
renames every function that is not also something else, apart from the entry point, and changes
nothing but the spelling of these functions where they are defined, announced and called; their
short names are different from each other, from all names that are kept and from reserved words
(`renameFunctions_captureFree`).
-/

set_option autoImplicit false

namespace GlslShrink

theorem Census.mem_renamableFunctions_iff {census : Census} {name : String} :
    name ∈ census.renamableFunctions ↔ name ∈ census.functions ∧ name ≠ entryPoint ∧
      name ∉ census.variableNames ∧ name ∉ census.structs ∧ name ∉ census.types ∧
      name ∉ census.directiveWords := by
  rw [renamableFunctions, NameSet.mem_without, NameSet.mem_without, NameSet.mem_without,
    NameSet.mem_without, NameSet.mem_without, List.mem_singleton]
  tauto

namespace FunctionNames

variable {functions : NameSet} {root : Node} {census : Census}

/-- A function that is to be renamed asks for a short name where it is defined or announced. -/
theorem exists_request {depth : Nat} {site : Nat × Node} (hsite : site ∈ root.sites depth)
    {name : String} (hfunction : name ∈ Census.named [.functionDefinition, .functionPrototype] site)
    (hname : name ∈ functions) : ∃ request ∈ requests functions root, request.name = name := by
  induction root using Node.induct generalizing depth with
  | h root ih =>
    rw [requests_eq]
    rw [Node.sites_eq, List.mem_cons, List.mem_flatMap] at hsite
    rcases hsite with rfl | ⟨child, hchild, hsite⟩
    · refine ⟨.symbol name, List.mem_append_right _ ?_, rfl⟩
      simp only [Census.named, List.mem_ite_nil_right, List.mem_cons, List.not_mem_nil,
        or_false] at hfunction
      obtain ⟨htag, rfl⟩ := hfunction
      rcases htag with htag | htag <;> simp [asksBehind, asks, htag, hname]
    · obtain ⟨request, hrequest, heq⟩ := ih child hchild hsite
      exact ⟨request, List.mem_append_left _
        (List.mem_append_right _ (List.mem_flatMap.mpr ⟨child, hchild, hrequest⟩)), heq⟩

/-- Exactly the renamable functions have short names afterwards. -/
theorem exists_short_iff (hroot : root.Grammatical) (hcensus : Census.ofNode root = .ok census)
    {start : Nat} {change : Change} {names : Generator}
    (hrun : rename start root = .ok (change, names)) (name : String) :
    (∃ short, names.shortened.find? name = some short) ↔ name ∈ census.renamableFunctions := by
  constructor
  · rintro ⟨short, hfind⟩
    obtain ⟨_, _, hrun', -, -, hdomain, -⟩ := rename_spec hroot start hcensus
    cases hrun'.symm.trans hrun
    exact hdomain hfind
  · intro hname
    rw [rename_names hroot hcensus hrun, Generator.exists_short_foldl]
    obtain ⟨site, hsite, hfunction⟩ := (Census.mem_functions_iff hroot hcensus).mp
      (Census.mem_renamableFunctions_iff.mp hname).1
    exact Or.inr (exists_request hsite hfunction hname)

/-- The name stands for functions of the tree and for nothing else in it, and is not that of the
entry point. -/
structure OnlyFunction (root : Node) (name : String) : Prop where
  function : ∃ node ∈ root.preorder,
    (node.tag = .functionDefinition ∨ node.tag = .functionPrototype) ∧ node.value = name
  notEntry : name ≠ "main"
  notVariable : ∀ site ∈ root.sites 0, ¬ Census.Declares site name
  notStruct : ∀ site ∈ root.sites 0, ¬ Census.Defines site name
  notType : ∀ node ∈ root.preorder, node.tag = .typeName → node.value ≠ name
  notDirective : ∀ node ∈ root.preorder, node.tag = .directive →
    name ∉ Census.wordsOfDirective node.value

theorem mem_renamableFunctions_iff_onlyFunction (hroot : root.Grammatical)
    (hcensus : Census.ofNode root = .ok census) {name : String} :
    name ∈ census.renamableFunctions ↔ OnlyFunction root name := by
  have hfunction : name ∈ census.functions ↔ ∃ node ∈ root.preorder,
      (node.tag = .functionDefinition ∨ node.tag = .functionPrototype) ∧ node.value = name := by
    rw [Census.mem_functions_iff hroot hcensus, ← Census.exists_site_iff]
    simp [Census.named, eq_comm]
  rw [Census.mem_renamableFunctions_iff, hfunction, Census.mem_variableNames_iff hroot hcensus,
    Census.mem_structs_iff hroot hcensus, Census.mem_types_iff hroot hcensus,
    Census.mem_directiveWords_iff hroot hcensus]
  simp only [not_exists, not_and]
  constructor
  · rintro ⟨hfunction, hentry, hvariable, hstruct, htype, hdirective⟩
    exact ⟨hfunction, hentry, hvariable, hstruct, htype, hdirective⟩
  · rintro ⟨hfunction, hentry, hvariable, hstruct, htype, hdirective⟩
    exact ⟨hfunction, hentry, hvariable, hstruct, htype, hdirective⟩

/-- The second tree comes from the first one by a renaming of functions that keeps names apart: the
map, extended by the identity, is injective on the names of the tree and uses no reserved word, it
renames the functions that are nothing else and not the entry point, and the trees differ only in the
spelling of these functions. -/
structure CaptureFree (census : Census) (names : NameMap String) (old new : Node) : Prop where
  injective : names.InjectiveOn census.names
  unreserved : ∀ {name short}, names.find? name = some short → Word.isReserved short = false
  domain : ∀ name, names.contains name = true ↔ name ∈ census.functions ∧ name ≠ entryPoint ∧
    name ∉ census.variableNames ∧ name ∉ census.structs ∧ name ∉ census.types ∧
    name ∉ census.directiveWords
  only : ∀ name, names.contains name = true ↔ OnlyFunction old name
  relabelled : new.sameShape (old.relabel (spelling names.names names) 0) = true

theorem mem_names_iff_contains {map : NameMap String} {name : String} :
    name ∈ map.names ↔ map.contains name = true := by
  rw [NameMap.contains_iff, NameMap.names]
  constructor
  · intro hname
    obtain ⟨⟨first, value⟩, hmem, rfl⟩ := List.mem_map.mp hname
    have hsome := List.lookup_isSome_iff.mpr ⟨_, hmem, beq_self_eq_true first⟩
    exact Option.isSome_iff_exists.mp hsome
  · rintro ⟨value, hfind⟩
    exact List.mem_map.mpr ⟨_, NameMap.mem_of_find? hfind, rfl⟩

theorem rename_captureFree (hroot : root.Grammatical) (hcensus : Census.ofNode root = .ok census)
    (start : Nat) :
    ∃ change names, rename start root = .ok (change, names) ∧
      CaptureFree census names.shortened root (change.result root) := by
  obtain ⟨change, names, hrun, hgrows, hproper, hdomain, hbare⟩ :=
    rename_spec hroot start hcensus
  have hiff := exists_short_iff hroot hcensus hrun
  have hfresh : ∀ {name short}, names.shortened.find? name = some short →
      short ∉ (generator census start).used ∧ Word.isReserved short = false := by
    intro name short hfind
    rcases hgrows.fresh hfind with hstart | ⟨hused, hreserved, -⟩
    · rw [generator_shortened] at hstart
      cases hstart
    · exact ⟨hused, hreserved⟩
  refine ⟨change, names, hrun, ?_, fun hfind => (hfresh hfind).2, fun name => ?_, fun name => ?_,
    ?_⟩
  · have hnames : ∀ {name short}, names.shortened.find? name = some short →
        name ∈ census.names := fun hfind =>
      Census.mem_names_of_function hroot hcensus
        (Census.mem_renamableFunctions_iff.mp (hdomain hfind)).1
    refine (hproper.injectiveOn_iff hnames).mpr fun name short hfind hmem => ?_
    -- A name of the stage that is kept is in use from the start, so no short name is spelled so.
    refine (hiff short).mpr (by_contra fun hkept => (hfresh hfind).1 ?_)
    exact Generator.mem_reserveAll_used.mpr (Or.inr (NameSet.mem_without.mpr ⟨hmem, hkept⟩))
  · rw [NameMap.contains_iff, hiff, Census.mem_renamableFunctions_iff]
  · rw [NameMap.contains_iff, hiff, mem_renamableFunctions_iff_onlyFunction hroot hcensus]
  · have hspelling : spelling census.renamableFunctions names.shortened =
        spelling names.shortened.names names.shortened := by
      funext depth tag value
      have hmem : value ∈ names.shortened.names ↔ value ∈ census.renamableFunctions := by
        rw [mem_names_iff_contains, NameMap.contains_iff, hiff]
      simp only [spelling, hmem]
    rw [Node.sameShape_iff, hbare, hspelling]

end FunctionNames

section Steps

variable {read program : Program}

/-- The renaming of functions goes through the stages one after the other, each from the number that
the published names stopped at. -/
theorem Steps.renameFunctions_run {outputs : StepOutputs} {published : Renaming}
    (hvariables : outputs.names? Steps.variableNames = some published) {changes : Stage → Change}
    {names : Stage → Generator}
    (hrename : ∀ stage, FunctionNames.rename (published.next stage) (program.tree stage) =
      .ok (changes stage, names stage)) :
    ∃ renamed : Program,
      Steps.renameFunctions.perform outputs program =
        (.ok (some (.renamed ⟨(names .vertex).nextIndex, (names .fragment).nextIndex,
          (names .vertex).shortened, (names .fragment).shortened⟩)), renamed) ∧
      ∀ stage, renamed.tree stage = (changes stage).result (program.tree stage) := by
  let middle := program.setTree .vertex ((changes .vertex).result (program.tree .vertex))
  let renamed := middle.setTree .fragment ((changes .fragment).result (program.tree .fragment))
  have hvertex : Steps.onStage (FunctionNames.rename (published.next .vertex)) .vertex program =
      (.ok (names .vertex), middle) := Steps.onStage_run (hrename .vertex)
  have hfragment : Steps.onStage (FunctionNames.rename (published.next .fragment)) .fragment
      middle = (.ok (names .fragment), renamed) := Steps.onStage_run (hrename .fragment)
  refine ⟨renamed, ?_, fun stage => ?_⟩
  · simp only [Steps.renameFunctions, hvariables]
    rw [run_bind hvertex, run_bind hfragment]
    rfl
  · cases stage with
    | vertex => rfl
    | fragment => rfl

/-- What is read in a stage is a shader as the grammar builds it. -/
theorem checked_of_parse {stage : Stage} {source : String} {tree : Node}
    (h : parse source stage.startRule = .ok tree) :
    tree.tag = .shader ∧ tree.Every (Node.Checked false) := by
  cases stage with
  | vertex | fragment =>
    obtain ⟨htag, hsound, -⟩ := Source.shader_sound h
    exact ⟨htag, hsound.imp fun _ => Node.checked_false_iff.mpr⟩

/-- Reading a program and renaming its variables give well-formed trees. -/
theorem grammatical_of_renamed
    (hread : ∀ stage, ∃ source, parse source stage.startRule = .ok (read.tree stage))
    {aggressive : Bool} {outputs : StepOutputs} {output : Option StepOutput}
    (hrun : (Steps.renameVariables aggressive).perform outputs read = (.ok output, program))
    (stage : Stage) : (program.tree stage).Grammatical := by
  obtain ⟨hgrammar, census, hcensus⟩ := exists_census hread
  obtain ⟨names, compiled, hrun', hstages⟩ :=
    VariableNames.renameVariables_run aggressive hgrammar hcensus outputs
  cases hrun'.symm.trans hrun
  obtain ⟨source, hsource⟩ := hread stage
  have hstays := VariableNames.stays_stages hstages stage (checked_of_parse hsource).2
  exact hstays.checked.imp fun _ hnode => hnode.1

/-- The renaming of functions, on a program that was read or whose variables were renamed after that:
it succeeds whatever names were published for the variables, and is free of capture in both stages. -/
theorem renameFunctions_captureFree
    (hread : ∀ stage, ∃ source, parse source stage.startRule = .ok (read.tree stage))
    (hprogram : program = read ∨ ∃ aggressive earlier output,
      (Steps.renameVariables aggressive).perform earlier read = (.ok output, program))
    {outputs : StepOutputs} {published : Renaming}
    (hvariables : outputs.names? Steps.variableNames = some published) :
    ∃ (census : Stage → Census) (names : Renaming) (compiled : Program),
      (∀ stage, Census.ofNode (program.tree stage) = .ok (census stage)) ∧
      Steps.renameFunctions.perform outputs program =
        (.ok (some (.renamed names)), compiled) ∧
      ∀ stage, FunctionNames.CaptureFree (census stage) (names.names stage) (program.tree stage)
        (compiled.tree stage) := by
  have hgrammar : ∀ stage, (program.tree stage).Grammatical := by
    rcases hprogram with rfl | ⟨aggressive, earlier, output, hrun⟩
    · exact (exists_census hread).1
    · exact grammatical_of_renamed hread hrun
  have hcensus := fun stage => Census.ofNode_eq (hgrammar stage).fitsLayout
  have hstages := fun stage =>
    FunctionNames.rename_captureFree (hgrammar stage) (hcensus stage) (published.next stage)
  choose changes names hrename hfree using hstages
  obtain ⟨compiled, hrun, htrees⟩ := Steps.renameFunctions_run hvariables hrename
  refine ⟨_, _, compiled, hcensus, hrun, fun stage => ?_⟩
  rw [htrees]
  cases stage with
  | vertex => exact hfree .vertex
  | fragment => exact hfree .fragment

/-- After the renaming of variables: a function that is called before it is defined and one whose
name is already short, one that shares its name with a variable, and one per stage of the same
name. -/
theorem renameFunctions_captureFree_afterVariables :
    ∃ read published program,
      Program.read "float a(){return 1.;}float twice(float x){return x+a();}void main(){twice(2.);}"
        "void twice();void f(){twice();}void twice(){int f;}void main(){f();}" = .ok read ∧
      (Steps.renameVariables true).perform {} read =
        (.ok (some (.renamed published)), program) ∧
      ∃ (census : Stage → Census) (names : Renaming) (compiled : Program),
        (∀ stage, Census.ofNode (program.tree stage) = .ok (census stage)) ∧
        Steps.renameFunctions.perform
            (({} : StepOutputs).record Steps.variableNames (some (.renamed published))) program =
          (.ok (some (.renamed names)), compiled) ∧
        ∀ stage, FunctionNames.CaptureFree (census stage) (names.names stage) (program.tree stage)
          (compiled.tree stage) := by
  have hok : (Program.read
      "float a(){return 1.;}float twice(float x){return x+a();}void main(){twice(2.);}"
      "void twice();void f(){twice();}void twice(){int f;}void main(){f();}").toOption.any
        (fun _ => true) = true := by decide +kernel
  obtain ⟨read, hread, -⟩ := exists_ok_of_any hok
  have hsources := Program.exists_source hread
  obtain ⟨hgrammar, census, hcensus⟩ := exists_census hsources
  obtain ⟨names, program, hrun, -⟩ :=
    VariableNames.renameVariables_run true hgrammar hcensus {}
  exact ⟨read, _, program, hread, hrun,
    renameFunctions_captureFree hsources (Or.inr ⟨true, {}, _, hrun⟩) rfl⟩

end Steps

end GlslShrink
