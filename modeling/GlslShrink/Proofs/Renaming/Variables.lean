import GlslShrink.Proofs.Renaming.Relabel

/-!
What the renaming of variables and structures does to one stage. From a generator without clashes it
succeeds on every well-formed tree and gives the tree with its values respelled by the names handed
out (`rename_spec`). Exactly the selected names that the tree declares or defines have short names
afterwards, and the names handed out on the way are fresh.
-/

set_option autoImplicit false

namespace GlslShrink.VariableNames

/-- How the value of a node is spelled when some variables and some structures have other names.
Members of structures, fields and functions keep their spelling. -/
def spelling (variableNames structs : NameSet) (names : NameMap String) : Spelling :=
  fun depth tag value =>
    match tag with
    | .declarator => if depth = 0 ∧ value ∈ variableNames then names.image value else value
    | .parameter | .identifier => if value ∈ variableNames then names.image value else value
    | .structDefinition | .typeName | .call =>
      if value ∈ structs then names.image value else value
    | _ => value

/-- The name is selected as a variable or as a structure. -/
def Selection.Has (selection : Selection) (name : String) : Prop :=
  name ∈ selection.variableNames ∨ name ∈ selection.structs

/-- What holds of the states of a renaming, with `depth` structures around the current node. -/
structure Inv (selection : Selection) (depth : Nat) (state : State) : Prop where
  chosen : state.selection = selection
  structDepth : state.structDepth = depth
  proper : state.names.Proper
  domain : ∀ {name short}, state.names.shortened.find? name = some short → selection.Has name

/-- The site declares or defines a selected name. -/
def Selects (selection : Selection) (site : Nat × Node) (name : String) : Prop :=
  name ∈ selection.variableNames ∧ Census.Declares site name ∨
    name ∈ selection.structs ∧ Census.Defines site name

/-- The selected names that the tree declares or defines have short names. -/
def Covered (selection : Selection) (depth : Nat) (names : Generator) (node : Node) : Prop :=
  ∀ site ∈ node.sites depth, ∀ name, Selects selection site name →
    ∃ short, names.shortened.find? name = some short

/-- What becomes of a node. -/
structure Out (selection : Selection) (depth : Nat) (state : State) (node new : Node) : Prop where
  respelled : Respelled (spelling selection.variableNames selection.structs) depth state.names node
    new
  covered : Covered selection depth state.names node

/-! ### The operations of the editor -/

section Runs

variable {node : Node} {change : Change} {state : State}

theorem run_get (state : State) : (get : Walk State State) state = (.ok state, state) :=
  rfl

theorem renameVariable_run (h : state.renames node = true) :
    renameVariable node change state =
      (.ok (named node change (state.names.shortenSymbol node.value).1),
        { state with names := (state.names.shortenSymbol node.value).2 }) := by
  rw [renameVariable, run_bind (run_get state), if_pos h]
  rfl

theorem renameVariable_run_kept (h : ¬state.renames node = true) :
    renameVariable node change state = (.ok change, state) := by
  rw [renameVariable, run_bind (run_get state), if_neg h]
  rfl

theorem renameStruct_run (h : state.selection.structs.contains node.value = true) :
    renameStruct node change state =
      (.ok (named node change (state.names.shortenDefinition node.value).1),
        { state with names := (state.names.shortenDefinition node.value).2 }) := by
  rw [renameStruct, run_bind (run_get state), if_pos h]
  rfl

theorem renameStruct_run_kept (h : ¬state.selection.structs.contains node.value = true) :
    renameStruct node change state = (.ok change, state) := by
  rw [renameStruct, run_bind (run_get state), if_neg h]
  rfl

theorem before_of_other (hstruct : node.tag ≠ .structDefinition)
    (hdeclares : ¬(node.tag = .declarator ∨ node.tag = .parameter)) :
    editor.before node = pure () := by
  simp only [editor]
  split <;> simp_all

theorem editing_of_other {descend : Walk State Change}
    (hvariable : ¬(node.tag = .declarator ∨ node.tag = .parameter ∨ node.tag = .identifier))
    (hstruct : ¬(node.tag = .structDefinition ∨ node.tag = .typeName ∨ node.tag = .call)) :
    editor.editing node descend = do return some (← descend) := by
  simp only [editor]
  refine congrArg (descend >>= ·) (funext fun change => ?_)
  split <;> simp_all

end Runs

theorem spelling_of_other {variableNames structs : NameSet} {tag : Tag}
    (hvariable : ¬(tag = .declarator ∨ tag = .parameter ∨ tag = .identifier))
    (hstruct : ¬(tag = .structDefinition ∨ tag = .typeName ∨ tag = .call))
    (names : NameMap String) (depth : Nat) (value : String) :
    spelling variableNames structs names depth tag value = value := by
  unfold spelling
  split <;> simp_all

/-! ### One node -/

section Node

variable {selection : Selection} {depth : Nat} {state : State} {node : Node}

theorem Inv.shorten {nameFor : Nat → String} (hinv : Inv selection depth state)
    (hnumbering : Numbering nameFor) {name : String}
    (hname : selection.Has name) :
    Inv selection depth { state with names := (state.names.shortenBy nameFor name).2 } := by
  have hshort := hinv.proper.shorten hnumbering name
  refine ⟨hinv.chosen, hinv.structDepth, hshort.proper, fun {other _} hfind => ?_⟩
  by_cases hother : other = name
  · rwa [hother]
  · exact hinv.domain ((hshort.others other hother).symm.trans hfind)

theorem renames_iff (hinv : Inv selection depth state) (node : Node) :
    state.renames node = true ↔
      (node.tag = .declarator → depth = 0) ∧ node.value ∈ selection.variableNames := by
  rw [State.renames, hinv.chosen, hinv.structDepth, Bool.and_eq_true, Bool.or_eq_true, bne_iff_ne,
    beq_iff_eq, List.contains_iff_mem, imp_iff_not_or]

theorem Inv.enterStruct (hinv : Inv selection depth state) :
    Inv selection (depth + 1) (state.enterStruct node) ∧
      state.names.Extends (state.enterStruct node).names := by
  unfold State.enterStruct
  by_cases hselected : state.selection.structs.contains node.value
  · have hname : node.value ∈ selection.structs := hinv.chosen ▸ List.contains_iff_mem.mp hselected
    have hinv' := hinv.shorten numbering_definition (Or.inr hname)
    simp only [if_pos hselected]
    exact ⟨⟨hinv.chosen, congrArg (· + 1) hinv.structDepth, hinv'.proper, hinv'.domain⟩,
      (hinv.proper.shorten numbering_definition _).grows⟩
  · simp only [if_neg hselected]
    exact ⟨⟨hinv.chosen, congrArg (· + 1) hinv.structDepth, hinv.proper, hinv.domain⟩, .refl _⟩

theorem Inv.allocate (hinv : Inv selection depth state) :
    Inv selection depth (state.allocate node) ∧
      state.names.Extends (state.allocate node).names := by
  unfold State.allocate
  by_cases hrenames : state.renames node = true
  · rw [if_pos hrenames]
    have hname := ((renames_iff hinv node).mp hrenames).2
    exact ⟨hinv.shorten numbering_plain (Or.inl hname),
      (hinv.proper.shorten numbering_plain _).grows⟩
  · rw [if_neg hrenames]
    exact ⟨hinv, .refl _⟩

theorem before_run (hinv : Inv selection depth state) :
    ∃ state', editor.before node state = (.ok (), state') ∧
      Inv selection (node.innerDepth depth) state' ∧ state.names.Extends state'.names := by
  unfold Node.innerDepth
  by_cases hstruct : node.tag = .structDefinition
  · rw [if_pos hstruct]
    refine ⟨state.enterStruct node, ?_, hinv.enterStruct⟩
    simp only [editor, hstruct]
    rfl
  · rw [if_neg hstruct]
    by_cases hdeclares : node.tag = .declarator ∨ node.tag = .parameter
    · refine ⟨state.allocate node, ?_, hinv.allocate⟩
      rcases hdeclares with htag | htag <;> simp only [editor, htag] <;> rfl
    · exact ⟨state, by rw [before_of_other hstruct hdeclares]; rfl, hinv, .refl _⟩

theorem after_run (hinv : Inv selection (node.innerDepth depth) state) :
    ∃ state', editor.after node state = (.ok (), state') ∧ Inv selection depth state' ∧
      state.names.Extends state'.names := by
  by_cases htag : node.tag = .structDefinition
  · refine ⟨state.leaveStruct, ?_, ⟨hinv.chosen, ?_, hinv.proper, hinv.domain⟩, .refl _⟩
    · simp only [editor, if_pos htag]
      rfl
    · rw [State.leaveStruct, hinv.structDepth, Node.innerDepth, if_pos htag, Nat.add_sub_cancel]
  · refine ⟨state, ?_, ⟨hinv.chosen, ?_, hinv.proper, hinv.domain⟩, .refl _⟩
    · simp only [editor, if_neg htag]
      rfl
    · rw [hinv.structDepth, Node.innerDepth, if_neg htag]

theorem covered_of_over {names : Generator} {new : Node}
    (hover : node.Over (Out selection (node.innerDepth depth) state) new)
    (hgrows : state.names.Extends names)
    (hself : ∀ name, Selects selection (depth, node) name →
      ∃ short, names.shortened.find? name = some short) :
    Covered selection depth names node := by
  intro site hsite name hname
  rw [Node.sites_eq, List.mem_cons, List.mem_flatMap] at hsite
  rcases hsite with rfl | ⟨child, hchild, hsite⟩
  · exact hself name hname
  · obtain ⟨_, -, hout⟩ := exists_of_forall₂ hover.children hchild
    obtain ⟨short, hshort⟩ := hout.covered site hsite name hname
    exact ⟨short, hgrows.keeps hshort⟩

theorem over_respelled {new : Node} (hover : node.Over (Out selection depth state) new) :
    node.Over (Respelled (spelling selection.variableNames selection.structs) depth state.names)
      new :=
  ⟨hover.tag, hover.value, hover.qualifiers,
    hover.slots.imp fun _ _ hslot => hslot.imp fun _ _ hout => hout.respelled⟩

theorem Selects.value {name : String} (h : Selects selection (depth, node) name) :
    node.value = name :=
  h.elim (fun h => h.2.1) (fun h => h.2.1)

theorem out_named {nameFor : Nat → String} {change : Change} (hproper : state.names.Proper)
    (hnumbering : Numbering nameFor)
    (hover : node.Over (Out selection (node.innerDepth depth) state) (change.result node))
    (hspell : ∀ map, spelling selection.variableNames selection.structs map depth node.tag
      node.value = map.image node.value) :
    Out selection depth { state with names := (state.names.shortenBy nameFor node.value).2 } node
      ((named node change (state.names.shortenBy nameFor node.value).1).result node) := by
  have hshort := hproper.shorten hnumbering node.value
  refine ⟨respelled_named hproper hnumbering (over_respelled hover) hspell,
    covered_of_over hover hshort.grows fun name hname => ?_⟩
  rw [← hname.value]
  exact ⟨_, hshort.found⟩

theorem out_kept {change : Change}
    (hover : node.Over (Out selection (node.innerDepth depth) state) (change.result node))
    (hspell : ∀ map, spelling selection.variableNames selection.structs map depth node.tag
      node.value = node.value)
    (hnone : ∀ name, ¬Selects selection (depth, node) name) :
    Out selection depth state node (change.result node) :=
  ⟨respelled_kept (over_respelled hover) hspell,
    covered_of_over hover (.refl _) fun name hname => absurd hname (hnone name)⟩

/-- What the editor makes of a node that can name a variable. -/
theorem renameVariable_spec {change : Change}
    (htag : node.tag = .declarator ∨ node.tag = .parameter ∨ node.tag = .identifier)
    (hinv : Inv selection (node.innerDepth depth) state)
    (hover : node.Over (Out selection (node.innerDepth depth) state) (change.result node)) :
    ∃ change' state', renameVariable node change state = (.ok change', state') ∧
      Inv selection (node.innerDepth depth) state' ∧ state.names.Extends state'.names ∧
      Out selection depth state' node (change'.result node) := by
  have hplain : node.innerDepth depth = depth := by
    rw [Node.innerDepth, if_neg]
    rcases htag with htag | htag | htag <;> rw [htag] <;> decide
  have hiff := renames_iff hinv node
  rw [hplain] at hiff
  by_cases hrenames : state.renames node = true
  · have hname := hiff.mp hrenames
    refine ⟨_, _, renameVariable_run hrenames, hinv.shorten numbering_plain (Or.inl hname.2),
      (hinv.proper.shorten numbering_plain _).grows,
      out_named hinv.proper numbering_plain hover fun map => ?_⟩
    rcases htag with htag | htag | htag <;> simp [spelling, htag, hname]
  · have hname := mt hiff.mpr hrenames
    refine ⟨_, _, renameVariable_run_kept hrenames, hinv, .refl _, out_kept hover ?_ ?_⟩
    · intro map
      rcases htag with htag | htag | htag <;> simp_all [spelling]
    · rintro name (⟨hmem, rfl, hdeclares⟩ | ⟨-, -, hdefines, -⟩)
      · exact hname ⟨fun h => by simp_all, hmem⟩
      · simp_all

/-- What the editor makes of a node that can name a structure. -/
theorem renameStruct_spec {change : Change}
    (htag : node.tag = .structDefinition ∨ node.tag = .typeName ∨ node.tag = .call)
    (hinv : Inv selection (node.innerDepth depth) state)
    (hover : node.Over (Out selection (node.innerDepth depth) state) (change.result node)) :
    ∃ change' state', renameStruct node change state = (.ok change', state') ∧
      Inv selection (node.innerDepth depth) state' ∧ state.names.Extends state'.names ∧
      Out selection depth state' node (change'.result node) := by
  by_cases hselected : state.selection.structs.contains node.value = true
  · have hname : node.value ∈ selection.structs := hinv.chosen ▸ List.contains_iff_mem.mp hselected
    refine ⟨_, _, renameStruct_run hselected, hinv.shorten numbering_definition (Or.inr hname),
      (hinv.proper.shorten numbering_definition _).grows,
      out_named hinv.proper numbering_definition hover fun map => ?_⟩
    rcases htag with htag | htag | htag <;> simp [spelling, htag, hname]
  · have hname : node.value ∉ selection.structs := by
      rwa [List.contains_iff_mem, hinv.chosen] at hselected
    refine ⟨_, _, renameStruct_run_kept hselected, hinv, .refl _, out_kept hover ?_ ?_⟩
    · intro map
      rcases htag with htag | htag | htag <;> simp [spelling, htag, hname]
    · rintro name (⟨-, -, hdeclares⟩ | ⟨hmem, rfl, -⟩)
      · rcases htag with htag | htag | htag <;> simp [htag] at hdeclares
      · exact hname hmem

theorem editing_run {descend : Walk State Change} {change : Change} {state' : State}
    (hdescend : descend state = (.ok change, state'))
    (hinv : Inv selection (node.innerDepth depth) state')
    (hover : node.Over (Out selection (node.innerDepth depth) state') (change.result node)) :
    ∃ change' state'', editor.editing node descend state = (.ok (some change'), state'') ∧
      Inv selection (node.innerDepth depth) state'' ∧ state'.names.Extends state''.names ∧
      Out selection depth state'' node (change'.result node) := by
  by_cases hvariable : node.tag = .declarator ∨ node.tag = .parameter ∨ node.tag = .identifier
  · obtain ⟨change', state'', hrun, hrest⟩ := renameVariable_spec hvariable hinv hover
    refine ⟨change', state'', ?_, hrest⟩
    rcases hvariable with htag | htag | htag <;> simp only [editor, htag] <;>
      rw [run_bind hdescend, run_bind hrun] <;> rfl
  · by_cases hstruct : node.tag = .structDefinition ∨ node.tag = .typeName ∨ node.tag = .call
    · obtain ⟨change', state'', hrun, hrest⟩ := renameStruct_spec hstruct hinv hover
      refine ⟨change', state'', ?_, hrest⟩
      rcases hstruct with htag | htag | htag <;> simp only [editor, htag] <;>
        rw [run_bind hdescend, run_bind hrun] <;> rfl
    · refine ⟨change, state', ?_, hinv, .refl _, out_kept hover ?_ ?_⟩
      · rw [editing_of_other hvariable hstruct, run_bind hdescend]
        rfl
      · exact fun map => spelling_of_other hvariable hstruct map depth node.value
      · rintro name (⟨-, -, hdeclares⟩ | ⟨-, -, hdefines, -⟩)
        · exact hvariable (by tauto)
        · exact hstruct (Or.inl hdefines)

theorem law (selection : Selection) :
    editor.Law (fun node => node.fitsLayout = true) (fun depth node => node.innerDepth depth)
      (Inv selection) (fun state state' => state.names.Extends state'.names) (Out selection) where
  fitsLayout h := h
  le_refl state := .refl state.names
  le_trans := Generator.Extends.trans
  out_mono hgrows hout :=
    ⟨hout.respelled.mono hgrows, fun site hsite name hname =>
      (hout.covered site hsite name hname).imp fun _ => hgrows.keeps⟩
  before _ := before_run
  editing _ := editing_run
  after _ := after_run

end Node

/-! ### A whole stage -/

/-- What the renaming of a stage gives: the new tree and the generator afterwards. -/
structure RenamedTree (selection : Selection) (names : Generator) (root new : Node)
    (names' : Generator) : Prop where
  grows : names.Extends names'
  proper : names'.Proper
  domain : ∀ {name short}, names'.shortened.find? name = some short → selection.Has name
  covered : Covered selection 0 names' root
  relabelled : new.bare =
    (root.relabel (spelling selection.variableNames selection.structs names'.shortened) 0).bare

theorem rename_spec {selection : Selection} {names : Generator} {root : Node}
    (hroot : root.Every (fun node => node.fitsLayout = true)) (hproper : names.Proper)
    (hdomain : ∀ {name short}, names.shortened.find? name = some short → selection.Has name) :
    ∃ change names', rename selection names root = .ok (change, names') ∧
      RenamedTree selection names root (change.result root) names' := by
  have hinv : Inv selection 0 { selection := selection, names := names } :=
    ⟨rfl, rfl, hproper, hdomain⟩
  obtain ⟨change, state, hrun, hinv', hgrows, hout⟩ := (law selection).apply hroot hinv
  refine ⟨change, state.names, ?_, hgrows, hinv'.proper, hinv'.domain, hout.covered,
    hout.respelled state.names (.refl _)⟩
  rw [rename, hrun]
  rfl

end GlslShrink.VariableNames
