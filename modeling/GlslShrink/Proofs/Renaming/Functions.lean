import GlslShrink.Proofs.Renaming.Relabel

/-!
What the renaming of functions does to a stage. It succeeds on every well-shaped tree and gives the
tree with the names of the renamable functions respelled where they are defined, announced and
called (`rename_spec`). The short names are fresh.
-/

set_option autoImplicit false

namespace GlslShrink.FunctionNames

/-- How the value of a node is spelled when some functions have other names. -/
def spelling (functions : NameSet) (names : NameMap String) : Spelling :=
  fun _ tag value =>
    match tag with
    | .functionDefinition | .functionPrototype | .call =>
      if value ∈ functions then names.image value else value
    | _ => value

/-- What holds of the states of a renaming. -/
structure Inv (functions : NameSet) (state : State) : Prop where
  chosen : state.functions = functions
  proper : state.names.Proper
  domain : ∀ {name short}, state.names.shortened.find? name = some short → name ∈ functions

section Node

variable {functions : NameSet} {state : State} {node : Node} {change : Change} {depth : Nat}

theorem Inv.shorten (hinv : Inv functions state) {name : String} (hname : name ∈ functions) :
    Inv functions { state with names := (state.names.shortenSymbol name).2 } := by
  have hshort := hinv.proper.shorten numbering_plain name
  refine ⟨hinv.chosen, hshort.proper, fun {other _} hfind => ?_⟩
  by_cases hother : other = name
  · rwa [hother]
  · exact hinv.domain ((hshort.others other hother).symm.trans hfind)

theorem Inv.allocate (hinv : Inv functions state) :
    Inv functions (state.allocate node) ∧ state.names.Extends (state.allocate node).names := by
  unfold State.allocate
  by_cases hselected : state.functions.contains node.value
  · have hname : node.value ∈ functions := hinv.chosen ▸ List.contains_iff_mem.mp hselected
    rw [if_pos hselected]
    exact ⟨hinv.shorten hname, (hinv.proper.shorten numbering_plain _).grows⟩
  · rw [if_neg hselected]
    exact ⟨hinv, .refl _⟩

theorem before_run (hinv : Inv functions state) :
    ∃ state', editor.before node state = (.ok (), state') ∧ Inv functions state' ∧
      state.names.Extends state'.names := by
  by_cases hfunction : node.tag = .functionDefinition ∨ node.tag = .functionPrototype
  · refine ⟨state.allocate node, ?_, hinv.allocate⟩
    rcases hfunction with htag | htag <;> simp only [editor, htag] <;> rfl
  · have hbefore : editor.before node = pure () := by
      simp only [editor]
      split <;> simp_all
    exact ⟨state, by rw [hbefore]; rfl, hinv, .refl _⟩

theorem renameFunction_spec
    (htag : node.tag = .functionDefinition ∨ node.tag = .functionPrototype ∨ node.tag = .call)
    (hinv : Inv functions state)
    (hover : node.Over (Respelled (spelling functions) (node.innerDepth depth) state.names)
      (change.result node)) :
    ∃ change' state', renameFunction node change state = (.ok change', state') ∧
      Inv functions state' ∧ state.names.Extends state'.names ∧
      Respelled (spelling functions) depth state'.names node (change'.result node) := by
  have hget : (get : Walk State State) state = (.ok state, state) := rfl
  by_cases hselected : state.functions.contains node.value = true
  · have hname : node.value ∈ functions := hinv.chosen ▸ List.contains_iff_mem.mp hselected
    have hrun : renameFunction node change state =
        (.ok (VariableNames.named node change (state.names.shortenSymbol node.value).1),
          { state with names := (state.names.shortenSymbol node.value).2 }) := by
      rw [renameFunction, run_bind hget, if_pos hselected]
      rfl
    refine ⟨_, _, hrun, hinv.shorten hname, (hinv.proper.shorten numbering_plain _).grows,
      respelled_named hinv.proper numbering_plain hover fun map => ?_⟩
    rcases htag with htag | htag | htag <;> simp [spelling, htag, hname]
  · have hname : node.value ∉ functions := by
      rwa [List.contains_iff_mem, hinv.chosen] at hselected
    have hrun : renameFunction node change state = (.ok change, state) := by
      rw [renameFunction, run_bind hget, if_neg hselected]
      rfl
    refine ⟨_, _, hrun, hinv, .refl _, respelled_kept hover fun map => ?_⟩
    rcases htag with htag | htag | htag <;> simp [spelling, htag, hname]

theorem editing_run {descend : Walk State Change} {state' : State}
    (hdescend : descend state = (.ok change, state')) (hinv : Inv functions state')
    (hover : node.Over (Respelled (spelling functions) (node.innerDepth depth) state'.names)
      (change.result node)) :
    ∃ change' state'', editor.editing node descend state = (.ok (some change'), state'') ∧
      Inv functions state'' ∧ state'.names.Extends state''.names ∧
      Respelled (spelling functions) depth state''.names node (change'.result node) := by
  by_cases hfunction :
      node.tag = .functionDefinition ∨ node.tag = .functionPrototype ∨ node.tag = .call
  · obtain ⟨change', state'', hrun, hrest⟩ := renameFunction_spec hfunction hinv hover
    refine ⟨change', state'', ?_, hrest⟩
    rcases hfunction with htag | htag | htag <;> simp only [editor, htag] <;>
      rw [run_bind hdescend, run_bind hrun] <;> rfl
  · have hediting : editor.editing node descend = do return some (← descend) := by
      simp only [editor]
      refine congrArg (descend >>= ·) (funext fun change => ?_)
      split <;> simp_all
    have hspell : ∀ map, spelling functions map depth node.tag node.value = node.value := by
      intro map
      unfold spelling
      split <;> simp_all
    refine ⟨change, state', ?_, hinv, .refl _, respelled_kept hover hspell⟩
    rw [hediting, run_bind hdescend]
    rfl

theorem law (functions : NameSet) :
    editor.Law (fun node => node.fitsLayout = true) (fun depth node => node.innerDepth depth)
      (fun _ => Inv functions) (fun state state' => state.names.Extends state'.names)
      (fun depth state => Respelled (spelling functions) depth state.names) where
  fitsLayout h := h
  le_refl state := .refl state.names
  le_trans := Generator.Extends.trans
  out_mono := Respelled.mono
  before _ := before_run
  editing _ := editing_run
  after _ hinv := ⟨_, rfl, hinv, .refl _⟩

end Node

theorem generator_shortened (census : Census) (start : Nat) :
    (generator census start).shortened = [] :=
  Generator.reserveAll_shortened _ _

theorem rename_spec {root : Node} (hroot : root.Grammatical) (start : Nat) {census : Census}
    (hcensus : Census.ofNode root = .ok census) :
    ∃ change names, rename start root = .ok (change, names) ∧
      (generator census start).Extends names ∧ names.Proper ∧
      (∀ {name short}, names.shortened.find? name = some short →
        name ∈ census.renamableFunctions) ∧
      (change.result root).bare =
        (root.relabel (spelling census.renamableFunctions names.shortened) 0).bare := by
  have hinv : Inv census.renamableFunctions
      { functions := census.renamableFunctions, names := generator census start } :=
    ⟨rfl, (Generator.proper_startingAt start).reserveAll _, fun hfind => by
      rw [generator_shortened] at hfind
      cases hfind⟩
  obtain ⟨change, state, hrun, hinv', hgrows, hout⟩ :=
    (law census.renamableFunctions).apply (k := 0) hroot.fitsLayout hinv
  refine ⟨change, state.names, ?_, hgrows, hinv'.proper, hinv'.domain,
    hout state.names (.refl _)⟩
  rw [rename, hcensus]
  simp only [bind, Except.bind, hrun]
  rfl

end GlslShrink.FunctionNames
