import GlslShrink.Proofs.Pass.TrimmedBraces
import GlslShrink.Proofs.Pipeline.Course
import GlslShrink.Proofs.Pipeline.ReadsBack
import GlslShrink.Proofs.Renaming.Unchanged
import GlslShrink.Proofs.RoundTrip.Source

/-!
Compiling what was compiled. The text of a compiled program can be compiled again with the same
options. That gives the same text if and only if no step finds anything to do
(`Options.Settles`): all functions are reached, no list has declarations that can be merged, and all
names are the first free ones, in order. Braces do not matter, since nothing is left of those that
could be removed; but blocks that were dissolved can leave declarations side by side that were merged
before in lists of their own, and short names are not handed out where they are in use at first.
-/

set_option autoImplicit false

namespace GlslShrink

variable {strict : Bool}

/-! ### Renaming -/

namespace Program

variable {aggressive enabled : Bool} {old new : Program}

/-- In both stages the variables and structures, and after them the functions, are spelled like the
short names that they would get. -/
def NamesInOrder (aggressive : Bool) (program : Program) : Prop :=
  ∃ (census : Stage → Census) (next : Stage → Nat),
    (∀ stage, Census.ofNode (program.tree stage) = .ok (census stage)) ∧
    (∀ stage, InOrder (VariableNames.Free aggressive census stage)
      (VariableNames.startOf next stage)
      (newcomers (VariableNames.shared aggressive census stage)
        (VariableNames.requests ((VariableNames.plan aggressive (census .vertex)
          (census .fragment)).selection stage) 0 (program.tree stage))) (next stage)) ∧
    ∀ stage, ∃ last, InOrder (FunctionNames.Free (census stage)) (next stage)
      (newcomers [] (FunctionNames.requests (census stage).renamableFunctions
        (program.tree stage))) last

theorem namesInOrder_of_bare (aggressive : Bool) {program other : Program}
    (hprogram : ∀ stage, (program.tree stage).Grammatical)
    (hother : ∀ stage, (other.tree stage).Grammatical)
    (h : ∀ stage, (other.tree stage).bare = (program.tree stage).bare) :
    other.NamesInOrder aggressive ↔ program.NamesInOrder aggressive := by
  have hcensus := fun stage => Census.ofNode_of_bare (hprogram stage) (hother stage) (h stage)
  have hsymbols : ∀ selection stage,
      VariableNames.requests selection 0 (other.tree stage) =
        VariableNames.requests selection 0 (program.tree stage) := fun selection stage => by
    rw [← VariableNames.requests_bare, h, VariableNames.requests_bare]
  have hfunctions : ∀ functions stage,
      FunctionNames.requests functions (other.tree stage) =
        FunctionNames.requests functions (program.tree stage) := fun functions stage => by
    rw [← FunctionNames.requests_bare, h, FunctionNames.requests_bare]
  simp only [NamesInOrder, hcensus, hsymbols, hfunctions]

/-- How a program is renamed: first the variables of both stages, then the functions of each. -/
structure RenamedBy (strict aggressive : Bool) (old middle new : Program)
    (census census' : Stage → Census) (names names' : Stage → Generator)
    (changes : Stage → Change) : Prop where
  ofOld : ∀ stage, Census.ofNode (old.tree stage) = .ok (census stage)
  stages : VariableNames.StagesRenamed aggressive census old names middle
  accepted : middle.Accepted strict
  ofMiddle : ∀ stage, Census.ofNode (middle.tree stage) = .ok (census' stage)
  rename : ∀ stage, FunctionNames.rename (names stage).nextIndex (middle.tree stage) =
    .ok (changes stage, names' stage)
  result : ∀ stage, new.tree stage = (changes stage).result (middle.tree stage)

theorem Renames.exists_renamedBy (h : old.Renames aggressive true new)
    (haccepted : old.Accepted strict) :
    ∃ middle census census' names names' changes,
      RenamedBy strict aggressive old middle new census census' names names' changes := by
  obtain ⟨earlier, published, middle, outputs, functions, hvariables, hpublished, hfunctions⟩ := h
  have hgrammar := fun stage => (haccepted stage).grammatical
  have hcensus := fun stage => Census.ofNode_eq (hgrammar stage).fitsLayout
  obtain ⟨names, _, hrun, hvariableStages⟩ :=
    VariableNames.renameVariables_run aggressive hgrammar hcensus earlier
  cases hrun.symm.trans hvariables
  obtain ⟨_, _, hrun', hmiddle⟩ := Steps.renameVariables_accepted haccepted aggressive earlier
  cases hrun'.symm.trans hvariables
  have hcensus' := fun stage => Census.ofNode_eq (hmiddle stage).grammatical.fitsLayout
  have hstages := fun stage => FunctionNames.rename_spec (hmiddle stage).grammatical
    (names stage).nextIndex (hcensus' stage)
  choose changes names' hrename _ using hstages
  have hrename' : ∀ stage, FunctionNames.rename (Renaming.next ⟨(names .vertex).nextIndex,
      (names .fragment).nextIndex, (names .vertex).shortened, (names .fragment).shortened⟩ stage)
        (middle.tree stage) = .ok (changes stage, names' stage) := fun stage => by
    cases stage with
    | vertex => exact hrename .vertex
    | fragment => exact hrename .fragment
  obtain ⟨_, hrun'', hresult⟩ := Steps.renameFunctions_run hpublished hrename'
  cases hrun''.symm.trans hfunctions
  exact ⟨middle, _, _, names, names', changes, hcensus, hvariableStages, hmiddle, hcensus',
    hrename, hresult⟩

theorem RenamedBy.relabelled {middle : Program} {census census' : Stage → Census}
    {names names' : Stage → Generator} {changes : Stage → Change}
    (h : RenamedBy strict aggressive old middle new census census' names names' changes)
    (stage : Stage) :
    (new.tree stage).bare = ((middle.tree stage).relabel
      (FunctionNames.spelling (census' stage).renamableFunctions (names' stage).shortened) 0).bare := by
  obtain ⟨_, _, hrun, -, -, -, hbare⟩ := FunctionNames.rename_spec (h.accepted stage).grammatical
    (names stage).nextIndex (h.ofMiddle stage)
  cases hrun.symm.trans (h.rename stage)
  rw [h.result, hbare]

/-- Renaming keeps the categories of all nodes. -/
theorem Renames.skeleton (h : old.Renames aggressive enabled new) (haccepted : old.Accepted strict)
    (stage : Stage) : (new.tree stage).skeleton = (old.tree stage).skeleton := by
  cases enabled with
  | false => rw [show new = old from h]
  | true =>
    obtain ⟨middle, _, _, _, _, _, hrenamed⟩ := h.exists_renamedBy haccepted
    rw [Node.skeleton_of_bare (hrenamed.relabelled stage), Node.skeleton_relabel,
      Node.skeleton_of_bare (hrenamed.stages.tree stage).relabelled, Node.skeleton_relabel]

/-- Renaming leaves a program as it is if and only if its names are in order. -/
theorem Renames.bare_iff (h : old.Renames aggressive enabled new) (haccepted : old.Accepted strict) :
    (∀ stage, (new.tree stage).bare = (old.tree stage).bare) ↔
      (enabled = true → old.NamesInOrder aggressive) := by
  cases enabled with
  | false => simp [show new = old from h]
  | true =>
    obtain ⟨middle, census, census', names, names', changes, hrenamed⟩ :=
      h.exists_renamedBy haccepted
    have hgrammar := fun stage => (haccepted stage).grammatical
    have hgrammar' := fun stage => (hrenamed.accepted stage).grammatical
    have hinOrder := VariableNames.inOrder_stages_iff hrenamed.stages hgrammar hrenamed.ofOld
    have hfunctions := fun stage => FunctionNames.bare_iff_faithful (hgrammar' stage)
      (hrenamed.ofMiddle stage) (hrenamed.rename stage)
    -- Names of variables that are handed out to themselves leave the program as it is, with its
    -- census and its requests for names of functions.
    have hmiddle : (∀ stage, (names stage).Faithful) → (∀ stage,
        (middle.tree stage).bare = (old.tree stage).bare ∧ census' stage = census stage) := by
      intro hfaithful stage
      have hbare := (hrenamed.stages.tree stage).bare_of_faithful (hfaithful stage)
      have hcensus := Census.ofNode_of_bare (hgrammar stage) (hgrammar' stage) hbare
      rw [hrenamed.ofMiddle, hrenamed.ofOld, Except.ok.injEq] at hcensus
      exact ⟨hbare, hcensus⟩
    have hnumbered : (∀ stage, (names stage).Faithful) → ∀ stage last,
        InOrder (FunctionNames.Free (census stage)) (names stage).nextIndex (newcomers []
          (FunctionNames.requests (census stage).renamableFunctions (old.tree stage))) last ↔
            (names' stage).Faithful ∧ (names' stage).nextIndex = last := by
      intro hfaithful stage last
      obtain ⟨hbare, hcensus⟩ := hmiddle hfaithful stage
      rw [← FunctionNames.inOrder_iff (hgrammar' stage) (hrenamed.ofMiddle stage)
        (hrenamed.rename stage), hcensus, ← FunctionNames.requests_bare, ← hbare,
        FunctionNames.requests_bare]
    simp only [forall_const]
    constructor
    · intro hbare
      have hfaithful : ∀ stage, (names stage).Faithful := fun stage =>
        (hrenamed.stages.tree stage).faithful_of_bare (hgrammar stage) (hrenamed.ofOld stage)
          (VariableNames.chosen_plan aggressive census stage)
          ((hrenamed.relabelled stage).symm.trans (hbare stage))
      refine ⟨census, fun stage => (names stage).nextIndex, hrenamed.ofOld,
        (hinOrder _).mpr fun stage => ⟨hfaithful stage, rfl⟩,
        fun stage => ⟨(names' stage).nextIndex, ?_⟩⟩
      refine (hnumbered hfaithful stage _).mpr ⟨(hfunctions stage).mp ?_, rfl⟩
      rw [← hrenamed.result, hbare, (hmiddle hfaithful stage).1]
    · rintro ⟨census₀, next, hcensus, hsymbols, hrest⟩ stage
      obtain rfl : census₀ = census := funext fun stage =>
        Except.ok.inj ((hcensus stage).symm.trans (hrenamed.ofOld stage))
      have hnames := (hinOrder next).mp hsymbols
      have hfaithful := fun stage => (hnames stage).1
      obtain ⟨last, hlast⟩ := hrest stage
      rw [← (hnames stage).2] at hlast
      rw [hrenamed.result, (hfunctions stage).mpr ((hnumbered hfaithful stage last).mp hlast).1,
        (hmiddle hfaithful stage).1]

/-! ### The other passes -/

section Passes

variable {α : Type} {pass : Node → Except Fault (Change × α)}

theorem Passes.cases (h : old.Passes pass enabled new) (stage : Stage) :
    enabled = true ∧ (old.tree stage).Becomes pass (new.tree stage) ∨
      enabled = false ∧ new.tree stage = old.tree stage := by
  cases enabled with
  | true => exact Or.inl ⟨rfl, h stage⟩
  | false => exact Or.inr ⟨rfl, by rw [show new = old from h]⟩

/-- What a pass does to every tree, it does to the stages of a program if it is enabled. -/
theorem Passes.dwindles (h : old.Passes pass enabled new) (haccepted : old.Accepted strict)
    (rests : Node → Prop)
    (hpass : ∀ {root change a}, root.tag = .shader → root.Grammatical →
      pass root = .ok (change, a) → root.Dwindles (rests root) (change.result root))
    (stage : Stage) :
    (old.tree stage).Dwindles (enabled = true → rests (old.tree stage)) (new.tree stage) := by
  rcases h.cases stage with ⟨rfl, change, a, hrun, hresult⟩ | ⟨rfl, hsame⟩
  · have hdwindles := hpass (haccepted stage).tag (haccepted stage).grammatical hrun
    rw [hresult]
    exact ⟨fun hrests => hdwindles.fixed (hrests rfl),
      fun hnot => hdwindles.less fun hrests => hnot fun _ => hrests⟩
  · rw [hsame]
    exact ⟨fun _ => rfl, fun hnot => absurd nofun hnot⟩

theorem Passes.reduces (h : old.Passes Braces.reduce enabled new) (haccepted : old.Accepted strict)
    (stage : Stage) :
    (new.tree stage).tally Tag.declares ≤ (old.tree stage).tally Tag.declares ∧
      (enabled = true → (new.tree stage).Every Braces.Trimless) ∧
      ((enabled = true → (old.tree stage).Every Braces.Trimless) →
        (new.tree stage).bare = (old.tree stage).bare) := by
  rcases h.cases stage with ⟨rfl, change, a, hrun, hresult⟩ | ⟨rfl, hsame⟩
  · have hreduces := Braces.reduces_of_reduce (haccepted stage).grammatical.fitsLayout hrun
    rw [hresult]
    exact ⟨hreduces.le, fun _ => hreduces.trimless, fun htrimless => hreduces.fixed (htrimless rfl)⟩
  · rw [hsame]
    exact ⟨Nat.le_refl _, nofun, fun _ => rfl⟩

end Passes

end Program

/-! ### A course that changes nothing -/

namespace Options

variable {options : Options} {program living merged reduced compiled : Program}

/-- The steps that the options ask for have nothing to do: all functions are reached, there are no
neighbouring declarations to merge, and the names are in order. -/
structure Settles (options : Options) (program : Program) : Prop where
  reached : options.removeDeadFunctions = true →
    ∀ stage, DeadFunctions.AllReached (program.tree stage)
  merged : options.mergeDeclarations = true →
    ∀ stage, (program.tree stage).Every Declarations.FullyMerged
  inOrder : options.minify = true → program.NamesInOrder options.aggressive

/-- What was compiled has no braces that could be removed. -/
theorem Course.trimless (h : options.Course strict program living merged reduced compiled)
    (henabled : options.reduceBraces = true) (stage : Stage) :
    (compiled.tree stage).Every Braces.Trimless := by
  rw [← Braces.every_trimless_skeleton, h.renames.skeleton h.reduced,
    Braces.every_trimless_skeleton]
  exact (h.reduces.reduces h.merged stage).2.1 henabled

/-- Without renaming and brace removal, what was compiled has no declarations to merge. -/
theorem Course.fullyMerged (h : options.Course strict program living merged reduced compiled)
    (hreduces : options.reduceBraces = false) (hrenames : options.minify = false)
    (henabled : options.mergeDeclarations = true) (stage : Stage) :
    (compiled.tree stage).Every Declarations.FullyMerged := by
  have hreduced : reduced = merged := by
    have hpasses := h.reduces
    rwa [hreduces] at hpasses
  have hcompiled : compiled = reduced := by
    have hpasses := h.renames
    rwa [hrenames] at hpasses
  rw [hcompiled, hreduced]
  rcases h.merges.cases stage with ⟨-, change, a, hrun, hresult⟩ | ⟨hdisabled, -⟩
  · rw [hresult]
    exact (Declarations.mergesFully_of_mergeAll (h.living stage).grammatical.fitsLayout hrun).merged
  · cases henabled.symm.trans hdisabled

/-- On a program without braces that could be removed, a course changes nothing if and only if its
steps have nothing to do. -/
theorem Course.unchanged_iff (h : options.Course strict program living merged reduced compiled)
    (hprogram : program.Accepted strict)
    (htrimless : options.reduceBraces = true →
      ∀ stage, (program.tree stage).Every Braces.Trimless) :
    (∀ stage, (compiled.tree stage).bare = (program.tree stage).bare) ↔
      options.Settles program := by
  have hremoves := h.removes.dwindles hprogram DeadFunctions.AllReached fun htag hgrammar hrun =>
    DeadFunctions.dwindles_of_remove htag hgrammar hrun
  have hmerges := h.merges.dwindles h.living (·.Every Declarations.FullyMerged)
    fun _ hgrammar hrun => (Declarations.mergesFully_of_mergeAll hgrammar.fitsLayout hrun).dwindles
  have hreduces := h.reduces.reduces h.merged
  have hrenames := h.renames.bare_iff h.reduced
  -- If neither functions nor declarations have anything to lose, braces have not either.
  have hreduced : (options.removeDeadFunctions = true →
        ∀ stage, DeadFunctions.AllReached (program.tree stage)) →
      (options.mergeDeclarations = true →
        ∀ stage, (living.tree stage).Every Declarations.FullyMerged) → ∀ stage,
      (living.tree stage).bare = (program.tree stage).bare ∧
        (reduced.tree stage).bare = (program.tree stage).bare := by
    intro hreached hfully stage
    have hliving := (hremoves stage).fixed fun henabled => hreached henabled stage
    have hmerged := ((hmerges stage).fixed fun henabled => hfully henabled stage).trans hliving
    refine ⟨hliving, ((hreduces stage).2.2 fun henabled => ?_).trans hmerged⟩
    rw [← Braces.every_trimless_skeleton, Node.skeleton_of_bare hmerged,
      Braces.every_trimless_skeleton]
    exact htrimless henabled stage
  have hgrammar := fun stage => (hprogram stage).grammatical
  have hgrammar' := fun stage => (h.reduced stage).grammatical
  constructor
  · intro hsame
    have htally : ∀ stage, (living.tree stage).tally Tag.declares =
          (program.tree stage).tally Tag.declares ∧
        (merged.tree stage).tally Tag.declares = (living.tree stage).tally Tag.declares := by
      intro stage
      have hskeleton := h.renames.skeleton h.reduced stage
      have hlast : (reduced.tree stage).tally Tag.declares =
          (program.tree stage).tally Tag.declares := by
        rw [← Node.tally_skeleton, ← hskeleton, Node.tally_skeleton,
          Node.tally_of_bare Tag.declares (hsame stage)]
      have hle := (hremoves stage).le
      have hle' := (hmerges stage).le
      have hle'' := (hreduces stage).1
      omega
    have hreached : options.removeDeadFunctions = true →
        ∀ stage, DeadFunctions.AllReached (program.tree stage) := by
      intro henabled stage
      by_contra hnot
      have hless := (hremoves stage).less fun hall => hnot (hall henabled)
      have heq := (htally stage).1
      omega
    have hfully : options.mergeDeclarations = true →
        ∀ stage, (living.tree stage).Every Declarations.FullyMerged := by
      intro henabled stage
      by_contra hnot
      have hless := (hmerges stage).less fun hall => hnot (hall henabled)
      have heq := (htally stage).2
      omega
    have hbare := hreduced hreached hfully
    refine ⟨hreached, fun henabled stage => ?_, fun henabled => ?_⟩
    · rw [← Node.every_bare Declarations.fullyMerged_bare, ← (hbare stage).1,
        Node.every_bare Declarations.fullyMerged_bare]
      exact hfully henabled stage
    · rw [← Program.namesInOrder_of_bare _ hgrammar hgrammar' fun stage => (hbare stage).2]
      exact hrenames.mp (fun stage => (hsame stage).trans (hbare stage).2.symm) henabled
  · rintro ⟨hreached, hfully, hinOrder⟩
    have hliving := fun stage => (hremoves stage).fixed fun henabled => hreached henabled stage
    have hbare := hreduced hreached fun henabled stage => by
      rw [← Node.every_bare Declarations.fullyMerged_bare, hliving,
        Node.every_bare Declarations.fullyMerged_bare]
      exact hfully henabled stage
    intro stage
    rw [hrenames.mpr (fun henabled => ?_), (hbare stage).2]
    rw [Program.namesInOrder_of_bare _ hgrammar hgrammar' fun stage => (hbare stage).2]
    exact hinOrder henabled

theorem settles_of_bare {other : Program} (hprogram : ∀ stage, (program.tree stage).Grammatical)
    (hother : ∀ stage, (other.tree stage).Grammatical)
    (h : ∀ stage, (other.tree stage).bare = (program.tree stage).bare) :
    options.Settles other ↔ options.Settles program := by
  have hreached := fun stage => DeadFunctions.allReached_of_bare (h stage)
  have hfully : ∀ stage, (other.tree stage).Every Declarations.FullyMerged ↔
      (program.tree stage).Every Declarations.FullyMerged := fun stage => by
    rw [← Node.every_bare Declarations.fullyMerged_bare, h,
      Node.every_bare Declarations.fullyMerged_bare]
  have hinOrder := Program.namesInOrder_of_bare options.aggressive hprogram hother h
  constructor
  · rintro ⟨reached, merged, inOrder⟩
    simp only [hreached, hfully, hinOrder] at reached merged inOrder
    exact ⟨reached, merged, inOrder⟩
  · rintro ⟨reached, merged, inOrder⟩
    simp only [← hreached, ← hfully, ← hinOrder] at reached merged inOrder
    exact ⟨reached, merged, inOrder⟩

end Options

/-! ### Compiling again -/

section Text

variable {stage : Stage} {root other : Node} {separator : String}

theorem Stage.Accepts.of_bare (h : stage.Accepts strict root) (hbare : other.bare = root.bare) :
    stage.Accepts strict other :=
  have hself : root.Stays strict root := ⟨rfl, h.checked, fun node hnode => ⟨node, hnode, rfl, rfl⟩⟩
  h.stays (hself.of_bare hbare)

theorem Stage.Accepts.strictly (h : stage.Accepts strict root)
    (hunambiguous : root.preorder.all Node.isUnambiguous = true) : stage.Accepts true root where
  tag := h.tag
  checked node hnode :=
    ⟨(h.checked node hnode).1, fun _ => List.all_eq_true.mp hunambiguous node hnode,
      (h.checked node hnode).2.2⟩
  noAttribute := h.noAttribute

theorem Stage.Accepts.prints (h : stage.Accepts true root) : stage.Prints root :=
  ⟨h.tag, h.checked.imp fun _ => Node.checked_true_iff.mp, h.noAttribute⟩

/-- Trees that can be printed have the same text if and only if they have the same shape. -/
theorem Stage.Accepts.render_eq_iff (h : stage.Accepts true root) (hother : stage.Accepts true other)
    (hseparator : ∀ c ∈ separator.toList, Text.isBlank c = true) :
    other.render separator = root.render separator ↔ other.bare = root.bare := by
  constructor
  · intro htext
    obtain ⟨read, hread, hshape⟩ := h.prints.parse_render hseparator
    obtain ⟨read', hread', hshape'⟩ := hother.prints.parse_render hseparator
    rw [htext] at hread'
    cases hread'.symm.trans hread
    rw [← (Node.sameShape_iff _ _).mp hshape, ← (Node.sameShape_iff _ _).mp hshape']
  · intro hbare
    rw [← Node.render_bare, hbare, Node.render_bare]

end Text

theorem exists_read_of_compile {vertex fragment : String} {options : Options}
    {result : Program × StepOutputs} (h : compile vertex fragment options = .ok result) :
    ∃ program, Program.read vertex fragment = .ok program := by
  cases hread : Program.read vertex fragment with
  | error error =>
    simp only [compile, hread, bind, Except.bind] at h
    cases h
  | ok program => exact ⟨program, rfl⟩

/-- The text of a compiled program, unless it prints nodes that are read as something else, can be
compiled again with the same options. That gives the same text if and only if all functions that are
left are reached, no declarations can be merged, and all names are the first free ones, as far as the
options ask for that. If they ask neither for the removal of functions nor for short names, and for
one of merging declarations and removing braces at most, it always does. -/
theorem compile_again_eq_iff {vertex fragment : String} {options : Options} {compiled : Program}
    {outputs : StepOutputs}
    (hcompile : compile vertex fragment options = .ok (compiled, outputs))
    (hseparator : ∀ c ∈ options.lineSeparator.toList, Text.isBlank c = true)
    (hunambiguous : ∀ stage, (compiled.tree stage).preorder.all Node.isUnambiguous = true) :
    ∃ again outputs',
      compile (compiled.render .vertex options.lineSeparator)
          (compiled.render .fragment options.lineSeparator) options = .ok (again, outputs') ∧
      ((∀ stage, again.render stage options.lineSeparator =
          compiled.render stage options.lineSeparator) ↔ options.Settles compiled) ∧
      (options.removeDeadFunctions = false → options.minify = false →
        options.mergeDeclarations = false ∨ options.reduceBraces = false →
        ∀ stage, again.render stage options.lineSeparator =
          compiled.render stage options.lineSeparator) := by
  obtain ⟨program, hread⟩ := exists_read_of_compile hcompile
  have hprogram : program.Accepted false := fun stage => by
    obtain ⟨source, hsource⟩ := Program.exists_source hread stage
    exact Stage.accepts_of_parse hsource
  obtain ⟨_, _, hrun, living, merged, reduced, hcourse⟩ := options.exists_course hprogram
  cases hrun.symm.trans (run_of_compile hread hcompile)
  have hcompiled : compiled.Accepted true := fun stage =>
    (hcourse.compiled stage).strictly (hunambiguous stage)
  choose trees hparse hshape using fun stage => (hcompiled stage).prints.parse_render hseparator
  let read : Program := ⟨trees .vertex, trees .fragment, []⟩
  have hbare : ∀ stage, (read.tree stage).bare = (compiled.tree stage).bare := fun stage => by
    cases stage with
    | vertex => exact (Node.sameShape_iff _ _).mp (hshape .vertex)
    | fragment => exact (Node.sameShape_iff _ _).mp (hshape .fragment)
  have haccepted : read.Accepted true := fun stage => (hcompiled stage).of_bare (hbare stage)
  obtain ⟨outputs', again, hrun', living', merged', reduced', hcourse'⟩ :=
    options.exists_course haccepted
  have hagain : (∀ stage, again.render stage options.lineSeparator =
      compiled.render stage options.lineSeparator) ↔ options.Settles compiled := by
    rw [← Options.settles_of_bare (fun stage => (hcompiled stage).grammatical)
      (fun stage => (haccepted stage).grammatical) hbare, ← hcourse'.unchanged_iff haccepted]
    · refine forall_congr' fun stage => ?_
      rw [hbare]
      exact (hcompiled stage).render_eq_iff (hcourse'.compiled stage) hseparator
    · intro henabled stage
      rw [← Braces.every_trimless_skeleton, Node.skeleton_of_bare (hbare stage),
        Braces.every_trimless_skeleton]
      exact hcourse.trimless henabled stage
  refine ⟨again, outputs', ?_, hagain, fun hremoves hrenames hone => hagain.mpr ⟨?_, ?_, ?_⟩⟩
  · have hread' : Program.read (compiled.render .vertex options.lineSeparator)
        (compiled.render .fragment options.lineSeparator) = .ok read :=
      Program.read_of_parse (hparse .vertex) (hparse .fragment)
    simp only [compile, hread', bind, Except.bind, hrun']
    rfl
  · simp [hremoves]
  · intro henabled stage
    have hreduces := hone.resolve_left fun hdisabled => by cases henabled.symm.trans hdisabled
    exact hcourse.fullyMerged hreduces hrenames henabled stage
  · simp [hrenames]

/-- A varying that both stages rename, a function that is renamed after the variables, a structure,
and a block that goes. -/
theorem compile_again_eq_iff_varying :
    ∃ compiled outputs,
      compile "varying vec2 uv;float twice(float x){return x*2.;}void main(){twice(uv.x);}"
        "varying vec2 uv;struct light{vec2 at;};void main(){light l;{l.at=uv;}}"
        { aggressive := true } = .ok (compiled, outputs) ∧
      ({ aggressive := true } : Options).Settles compiled ∧
      ∃ again outputs',
        compile (compiled.render .vertex "") (compiled.render .fragment "")
          { aggressive := true } = .ok (again, outputs') ∧
        ∀ stage, again.render stage "" = compiled.render stage "" := by
  have hfirst : (compile "varying vec2 uv;float twice(float x){return x*2.;}void main(){twice(uv.x);}"
      "varying vec2 uv;struct light{vec2 at;};void main(){light l;{l.at=uv;}}"
      { aggressive := true }).toOption.any (fun (compiled, _) =>
        compiled.render .vertex "" ==
          "varying vec2 a;float c(float b){return b*2.;}void main(){c(a.x);}" &&
        compiled.render .fragment "" ==
          "varying vec2 a;struct _c{vec2 at;};void main(){_c d;d.at=a;}" &&
        compiled.vertex.preorder.all Node.isUnambiguous &&
        compiled.fragment.preorder.all Node.isUnambiguous) = true := by
    decide +kernel
  have hsecond : (compile "varying vec2 a;float c(float b){return b*2.;}void main(){c(a.x);}"
      "varying vec2 a;struct _c{vec2 at;};void main(){_c d;d.at=a;}"
      { aggressive := true }).toOption.any (fun (again, _) =>
        again.render .vertex "" ==
          "varying vec2 a;float c(float b){return b*2.;}void main(){c(a.x);}" &&
        again.render .fragment "" ==
          "varying vec2 a;struct _c{vec2 at;};void main(){_c d;d.at=a;}") = true := by
    decide +kernel
  obtain ⟨⟨compiled, outputs⟩, hcompile, hcompiled⟩ := exists_ok_of_any hfirst
  obtain ⟨⟨again, outputs'⟩, hagain, htexts⟩ := exists_ok_of_any hsecond
  simp only [Bool.and_eq_true, beq_iff_eq] at hcompiled htexts
  obtain ⟨⟨⟨hvertex, hfragment⟩, hunambiguous⟩, hunambiguous'⟩ := hcompiled
  obtain ⟨again', outputs'', hagain', hiff, -⟩ := compile_again_eq_iff hcompile (by simp)
    (Stage.forall_iff.mpr ⟨hunambiguous, hunambiguous'⟩)
  rw [hvertex, hfragment] at hagain'
  cases hagain'.symm.trans hagain
  have hsame : ∀ stage, again.render stage "" = compiled.render stage "" :=
    Stage.forall_iff.mpr ⟨htexts.1.trans hvertex.symm, htexts.2.trans hfragment.symm⟩
  refine ⟨compiled, outputs, hcompile, hiff.mp hsame, again, outputs', ?_, hsame⟩
  rw [hvertex, hfragment, hagain]

/-- The empty block keeps the declarations apart until it is dissolved; only the next compilation
merges them. -/
theorem compile_again_ne :
    ∃ compiled outputs again outputs',
      compile "void main(){float a;{}float b;}" "" {} = .ok (compiled, outputs) ∧
      compile (compiled.render .vertex "") (compiled.render .fragment "") {} =
        .ok (again, outputs') ∧
      compiled.render .vertex "" = "void main(){float a;float b;}" ∧
      again.render .vertex "" = "void main(){float a,b;}" := by
  have hfirst : (compile "void main(){float a;{}float b;}" "" {}).toOption.any
      (fun (compiled, _) => compiled.render .vertex "" == "void main(){float a;float b;}" &&
        compiled.render .fragment "" == "") = true := by
    decide +kernel
  have hsecond : (compile "void main(){float a;float b;}" "" {}).toOption.any
      (fun (again, _) => again.render .vertex "" == "void main(){float a,b;}") = true := by
    decide +kernel
  obtain ⟨⟨compiled, outputs⟩, hcompile, hcompiled⟩ := exists_ok_of_any hfirst
  obtain ⟨⟨again, outputs'⟩, hagain, htext⟩ := exists_ok_of_any hsecond
  simp only [Bool.and_eq_true, beq_iff_eq] at hcompiled htext
  refine ⟨compiled, outputs, again, outputs', hcompile, ?_, hcompiled.1, htext⟩
  rw [hcompiled.1, hcompiled.2, hagain]

end GlslShrink
