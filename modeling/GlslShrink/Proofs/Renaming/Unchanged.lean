import GlslShrink.Proofs.Renaming.CaptureFreeFunctions
import GlslShrink.Proofs.Renaming.Linked
import GlslShrink.Proofs.Renaming.Numbering

/-!
When renaming changes nothing. A relabelled tree has the shape of the tree if and only if all its
sites keep their values (`bare_relabel_eq_iff`), and the names that a renaming hands out all stand at
sites of their own; so a tree keeps its shape exactly when all names are handed out to themselves.
For the steps that rename variables and then functions that means that the names of the program are
in order (`Program.NamesInOrder`): in each stage the symbols are spelled, one after the other, like
the first short names that are free.
-/

set_option autoImplicit false

namespace GlslShrink

/-! ### Relabelled trees -/

namespace Node

theorem innerDepth_bare (node : Node) (depth : Nat) :
    node.bare.innerDepth depth = node.innerDepth depth := by
  rw [innerDepth, bare_tag, innerDepth]

theorem bare_relabel (spelling : Spelling) (node : Node) (depth : Nat) :
    (node.relabel spelling depth).bare = node.bare.relabel spelling depth := by
  induction node using induct generalizing depth with
  | h node ih =>
    have hslots : (node.slots.map (Slot.map fun child =>
          child.relabel spelling (node.innerDepth depth))).map (Slot.map bare) =
        (node.slots.map (Slot.map bare)).map (Slot.map fun child =>
          child.relabel spelling (node.innerDepth depth)) := by
      rw [map_map_slots, map_map_slots, map_slots_eq_iff]
      exact fun child hchild => ih child hchild (node.innerDepth depth)
    rw [bare_eq, relabel_eq spelling node.bare, relabel_eq spelling node, hslots, innerDepth_bare,
      bare_eq node, new, new]

theorem relabel_relabel (first second : Spelling) (node : Node) (depth : Nat) :
    (node.relabel first depth).relabel second depth =
      node.relabel (fun depth tag value => second depth tag (first depth tag value)) depth := by
  induction node using induct generalizing depth with
  | h node ih =>
    have hdepth : (node.relabel first depth).innerDepth depth = node.innerDepth depth := by
      rw [innerDepth, relabel_tag, innerDepth]
    have hslots : (node.slots.map (Slot.map fun child =>
          child.relabel first (node.innerDepth depth))).map (Slot.map fun child =>
            child.relabel second (node.innerDepth depth)) =
        node.slots.map (Slot.map fun child => child.relabel
          (fun depth tag value => second depth tag (first depth tag value))
          (node.innerDepth depth)) :=
      map_map_congr fun child hchild => ih child hchild (node.innerDepth depth)
    rw [relabel_eq second, hdepth, relabel_eq first, relabel_eq _ node, hslots]

/-- A relabelled tree has the shape of the tree if and only if all sites keep their values. -/
theorem bare_relabel_eq_iff {spelling : Spelling} {node : Node} {depth : Nat} :
    (node.relabel spelling depth).bare = node.bare ↔
      ∀ site ∈ node.sites depth, spelling site.1 site.2.tag site.2.value = site.2.value := by
  induction node using induct generalizing depth with
  | h node ih =>
    have hslots : (node.slots.map (Slot.map fun child =>
          child.relabel spelling (node.innerDepth depth))).map (Slot.map bare) =
        node.slots.map (Slot.map bare) ↔
          ∀ child ∈ node.children, ∀ site ∈ child.sites (node.innerDepth depth),
            spelling site.1 site.2.tag site.2.value = site.2.value := by
      rw [map_map_slots, map_slots_eq_iff]
      exact forall₂_congr fun child hchild => ih child hchild
    rw [bare_eq, relabel_eq, bare_eq node, sites_eq, List.forall_mem_cons]
    simp only [new, mk.injEq, true_and, hslots, List.mem_flatMap]
    refine and_congr_right fun _ => ?_
    exact ⟨fun h site ⟨child, hchild, hsite⟩ => h child hchild site hsite,
      fun h child hchild site hsite => h site ⟨child, hchild, hsite⟩⟩

end Node

theorem Generator.Faithful.image {names : Generator} (h : names.Faithful) (name : String) :
    names.shortened.image name = name := by
  cases hfind : names.shortened.find? name with
  | none => exact NameMap.image_of_not_contains hfind
  | some short => rw [NameMap.image_of_find? hfind, h name short hfind]

/-! ### Variables and structures -/

namespace VariableNames

section Stage

variable {census : Census} {selection : Selection} {names names' : Generator} {root new : Node}

theorem RenamedTree.bare_of_faithful (h : RenamedTree selection names root new names')
    (hfaithful : names'.Faithful) : new.bare = root.bare := by
  rw [h.relabelled, Node.bare_relabel_eq_iff]
  intro site _
  unfold spelling
  split <;> simp [hfaithful.image]

/-- If a tree keeps its shape, whatever is done to functions afterwards, then all names were handed
out to themselves. -/
theorem RenamedTree.faithful_of_bare (h : RenamedTree selection names root new names')
    (hroot : root.Grammatical) (hcensus : Census.ofNode root = .ok census)
    (hchosen : Chosen census selection) {functions : NameSet} {later : NameMap String}
    (hbare : (new.relabel (FunctionNames.spelling functions later) 0).bare = root.bare) :
    names'.Faithful := by
  intro name short hfind
  rw [Node.bare_relabel, h.relabelled, ← Node.bare_relabel, Node.relabel_relabel,
    Node.bare_relabel_eq_iff] at hbare
  rw [← NameMap.image_of_find? hfind]
  rcases h.domain hfind with hname | hname
  · obtain ⟨site, hsite, rfl, htag⟩ := (Census.mem_variableNames_iff hroot hcensus).mp
      (hchosen.variableNames hname).1
    have hvalue := hbare site hsite
    rcases htag with ⟨htag, hdepth⟩ | ⟨htag, -⟩
    · simpa [FunctionNames.spelling, spelling, htag, hdepth, hname] using hvalue
    · simpa [FunctionNames.spelling, spelling, htag, hname] using hvalue
  · obtain ⟨site, hsite, rfl, htag, -⟩ := (Census.mem_structs_iff hroot hcensus).mp
      (hchosen.structs hname).1
    have hvalue := hbare site hsite
    simpa [FunctionNames.spelling, spelling, htag, hname] using hvalue

end Stage

variable {aggressive : Bool} {census : Stage → Census}

/-- The names that a stage does not number itself, since they link it to the vertex stage. -/
def shared (aggressive : Bool) (census : Stage → Census) : Stage → List String
  | .vertex => []
  | .fragment =>
    let plan := plan aggressive (census .vertex) (census .fragment)
    ((census .vertex).interface ++ plan.interfaceStructs).filter fun name =>
      (plan.vertex.variableNames.union plan.vertex.structs).contains name &&
        (plan.fragment.variableNames.union plan.fragment.structs).contains name

/-- The name can be given to a variable or structure of the stage: it is not reserved, no shared
name, and no name of either stage that this one keeps. -/
def Free (aggressive : Bool) (census : Stage → Census) (stage : Stage) (name : String) : Prop :=
  Word.isReserved name = false ∧ name ∉ shared aggressive census stage ∧
    (((plan aggressive (census .vertex) (census .fragment)).selection stage).Has name ∨
      ∀ other, name ∉ (census other).names)

theorem mem_shared_iff {name : String} :
    name ∈ shared aggressive census .fragment ↔
      name ∈ (census .vertex).interface ++
          (plan aggressive (census .vertex) (census .fragment)).interfaceStructs ∧
        ∀ stage, ((plan aggressive (census .vertex) (census .fragment)).selection stage).Has
          name := by
  rw [shared, List.mem_filter, Bool.and_eq_true, contains_renamed_iff, contains_renamed_iff,
    Stage.forall_iff]
  rfl

section Program

variable {program compiled : Program} {names : Stage → Generator} {stage : Stage}

theorem find?_starting_iff (hstages : StagesRenamed aggressive census program names compiled)
    (hgrammar : ∀ stage, (program.tree stage).Grammatical)
    (hcensus : ∀ stage, Census.ofNode (program.tree stage) = .ok (census stage))
    (hvertex : stage = .fragment → (names .vertex).Faithful) (name short : String) :
    (starting aggressive census (names .vertex) stage).shortened.find? name = some short ↔
      name ∈ shared aggressive census stage ∧ short = name := by
  rw [find?_starting]
  cases stage with
  | vertex =>
    constructor
    · rintro ⟨-, hfind⟩
      cases hfind
    · rintro ⟨hname, -⟩
      cases hname
  | fragment =>
    have hhas := (hstages.tree .vertex).has_iff (hgrammar .vertex) (hcensus .vertex)
      (chosen_plan aggressive census .vertex) name
    rw [find?_takenOver, mem_shared_iff, Stage.forall_iff, hhas]
    constructor
    · rintro ⟨hfragment, hname, hfind⟩
      exact ⟨⟨hname, ⟨short, hfind⟩, hfragment⟩, hvertex rfl name short hfind⟩
    · rintro ⟨⟨hname, ⟨other, hfind⟩, hfragment⟩, rfl⟩
      have hother := hvertex rfl short other hfind
      exact ⟨hfragment, hname, hother ▸ hfind⟩

/-- In a stage, all names are handed out to themselves if and only if they are in order. -/
theorem inOrder_stage_iff (hstages : StagesRenamed aggressive census program names compiled)
    (hgrammar : ∀ stage, (program.tree stage).Grammatical)
    (hcensus : ∀ stage, Census.ofNode (program.tree stage) = .ok (census stage)) (stage : Stage)
    (hvertex : stage = .fragment → (names .vertex).Faithful) (last : Nat) :
    InOrder (Free aggressive census stage) (firstIndex (names .vertex) stage)
        (newcomers (shared aggressive census stage)
          (requests ((plan aggressive (census .vertex) (census .fragment)).selection stage) 0
            (program.tree stage))) last ↔
      (names stage).Faithful ∧ (names stage).nextIndex = last := by
  have hfind := find?_starting_iff hstages hgrammar hcensus hvertex
  obtain ⟨change, hrun⟩ := hstages.ends stage
  rw [rename_names (hgrammar stage).fitsLayout hrun, ← Generator.inOrder_iff _
    (fun name short h => ((hfind name short).mp h).2) ?_ ?_ last]
  · rw [starting, generator_nextIndex]
  · intro i word _ _
    have hshared : (∃ symbol, symbol ∈ shared aggressive census stage ∧ word = symbol) ↔
        word ∈ shared aggressive census stage := by simp
    rw [Generator.isFree_iff, mem_used_starting_iff, Free, Stage.forall_iff]
    simp only [hfind, hshared]
    tauto
  · intro name
    simp [hfind]

/-- Where the numbering of a stage starts, given where those of the stages end. -/
def startOf (next : Stage → Nat) : Stage → Nat
  | .vertex => 0
  | .fragment => next .vertex

/-- In both stages all names are handed out to themselves if and only if they are in order. -/
theorem inOrder_stages_iff (hstages : StagesRenamed aggressive census program names compiled)
    (hgrammar : ∀ stage, (program.tree stage).Grammatical)
    (hcensus : ∀ stage, Census.ofNode (program.tree stage) = .ok (census stage))
    (next : Stage → Nat) :
    (∀ stage, InOrder (Free aggressive census stage) (startOf next stage)
        (newcomers (shared aggressive census stage)
          (requests ((plan aggressive (census .vertex) (census .fragment)).selection stage) 0
            (program.tree stage))) (next stage)) ↔
      ∀ stage, (names stage).Faithful ∧ (names stage).nextIndex = next stage := by
  have hvertex := inOrder_stage_iff hstages hgrammar hcensus .vertex nofun (next .vertex)
  have hfragment := fun hfaithful => inOrder_stage_iff hstages hgrammar hcensus .fragment
    (fun _ => hfaithful) (next .fragment)
  rw [Stage.forall_iff, Stage.forall_iff]
  constructor
  · rintro ⟨hinOrder, hinOrder'⟩
    obtain ⟨hfaithful, hnext⟩ := hvertex.mp hinOrder
    refine ⟨⟨hfaithful, hnext⟩, (hfragment hfaithful).mp ?_⟩
    rwa [firstIndex, hnext]
  · rintro ⟨⟨hfaithful, hnext⟩, hrest⟩
    have hinOrder := (hfragment hfaithful).mpr hrest
    rw [firstIndex, hnext] at hinOrder
    exact ⟨hvertex.mpr ⟨hfaithful, hnext⟩, hinOrder⟩

end Program

end VariableNames

/-! ### Functions -/

namespace FunctionNames

variable {root : Node} {census : Census} {start : Nat} {change : Change} {names : Generator}

/-- The name can be given to a function: it is not reserved and no name that the stage keeps. -/
def Free (census : Census) (name : String) : Prop :=
  Word.isReserved name = false ∧ (name ∈ census.renamableFunctions ∨ name ∉ census.names)

theorem bare_iff_faithful (hroot : root.Grammatical) (hcensus : Census.ofNode root = .ok census)
    (hrun : rename start root = .ok (change, names)) :
    (change.result root).bare = root.bare ↔ names.Faithful := by
  obtain ⟨change', names', hrun', -, -, hdomain, hbare⟩ := rename_spec hroot start hcensus
  cases hrun'.symm.trans hrun
  rw [hbare, Node.bare_relabel_eq_iff]
  constructor
  · intro hvalues name short hfind
    have hname := hdomain hfind
    obtain ⟨site, hsite, hfunction⟩ := (Census.mem_functions_iff hroot hcensus).mp
      (Census.mem_renamableFunctions_iff.mp hname).1
    simp only [Census.named, List.mem_ite_nil_right, List.mem_cons, List.not_mem_nil,
      or_false] at hfunction
    obtain ⟨htag, rfl⟩ := hfunction
    have hvalue := hvalues site hsite
    rw [← NameMap.image_of_find? hfind]
    rcases htag with htag | htag <;> simpa [spelling, htag, hname] using hvalue
  · intro hfaithful site _
    unfold spelling
    split <;> simp [hfaithful.image]

/-- All functions are handed out to themselves if and only if they are in order. -/
theorem inOrder_iff (hroot : root.Grammatical) (hcensus : Census.ofNode root = .ok census)
    (hrun : rename start root = .ok (change, names)) (last : Nat) :
    InOrder (Free census) start (newcomers [] (requests census.renamableFunctions root)) last ↔
      names.Faithful ∧ names.nextIndex = last := by
  have hnone : ∀ name, (generator census start).shortened.find? name = none := fun name => by
    rw [generator_shortened]
    rfl
  have hnext : (generator census start).nextIndex = start := Generator.reserveAll_nextIndex _ _
  rw [rename_names hroot hcensus hrun, ← Generator.inOrder_iff _ ?_ ?_ ?_ last]
  · rw [hnext]
  · intro name short hfind
    cases (hnone name).symm.trans hfind
  · intro i word _ _
    have hstart : word ∉ (Generator.startingAt start).used := List.not_mem_nil
    rw [Generator.isFree_iff, generator, Generator.mem_reserveAll_used, or_iff_right hstart,
      Census.keptNames, NameSet.mem_without, Free]
    tauto
  · intro name
    simp [hnone]

end FunctionNames

end GlslShrink
