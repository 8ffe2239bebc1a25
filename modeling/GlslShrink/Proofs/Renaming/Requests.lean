import GlslShrink.Proofs.Renaming.Functions
import GlslShrink.Proofs.Renaming.Variables
import GlslShrink.Proofs.Traversal.Course
import GlslShrink.Proofs.Tree.Gather

/-!
Which names a renaming asks for, and in which order. Where a symbol is declared it asks for its short
name before anything inside of the declaration does, and wherever it is used it asks again. The names
that a renaming has handed out are those that the generator gives when it serves these requests one
after the other (`FunctionNames.rename_names`, `VariableNames.rename_names`). So the requests alone
decide which symbols have short names, and which ones.
-/

set_option autoImplicit false

namespace GlslShrink

/-- A symbol that asks for its short name, as a type definition or as anything else. -/
inductive Request where
  | symbol (name : String)
  | definition (name : String)
  deriving DecidableEq, Repr

namespace Request

def name : Request → String
  | symbol name | definition name => name

/-- The numbering that the short name is taken from. -/
def nameFor : Request → Nat → String
  | symbol _ => ShortName.plain
  | definition _ => ShortName.definition

theorem numbering (request : Request) : Numbering request.nameFor := by
  cases request with
  | symbol => exact numbering_plain
  | definition => exact numbering_definition

end Request

namespace Generator

/-- The generator after a request. -/
def serve (names : Generator) (request : Request) : Generator :=
  (names.shortenBy request.nameFor request.name).2

theorem find?_serve (names : Generator) (request : Request) (name : String) :
    (names.serve request).shortened.find? name =
      if name = request.name then some (names.shortenBy request.nameFor request.name).1
      else names.shortened.find? name := by
  unfold serve
  cases hfind : names.shortened.find? request.name with
  | some short =>
    rw [shortenBy_of_find? hfind]
    split <;> simp_all
  | none =>
    obtain ⟨index, -, -, -, heq⟩ := shortenBy_of_new request.numbering hfind
    rw [heq]
    exact find?_assign _ _ _ _

/-- After requests have been served, the symbols with short names are those that had one and those
that asked for one. -/
theorem exists_short_foldl (requests : List Request) (names : Generator) (name : String) :
    (∃ short, (requests.foldl serve names).shortened.find? name = some short) ↔
      (∃ short, names.shortened.find? name = some short) ∨
        ∃ request ∈ requests, request.name = name := by
  induction requests generalizing names with
  | nil => simp
  | cons request requests ih =>
    rw [List.foldl_cons, ih, find?_serve, List.exists_mem_cons_iff]
    by_cases hname : name = request.name
    · simp [hname]
    · simp [hname, Ne.symm hname]

end Generator

/-! ### Functions -/

namespace FunctionNames

variable (functions : NameSet) (node : Node)

/-- What a node asks for if its value is one of the functions. -/
def asks : List Request :=
  if functions.contains node.value then [.symbol node.value] else []

/-- What a node asks for before its children. -/
def asksAhead : List Request :=
  match node.tag with
  | .functionDefinition | .functionPrototype => asks functions node
  | _ => []

/-- What a node asks for after its children. -/
def asksBehind : List Request :=
  match node.tag with
  | .functionDefinition | .functionPrototype | .call => asks functions node
  | _ => []

/-- What a tree asks for, in order. -/
def requests : List Request :=
  node.gather (fun _ _ => ()) (fun _ => asksAhead functions) (fun _ => asksBehind functions) ()

theorem requests_eq : requests functions node =
    asksAhead functions node ++ node.children.flatMap (requests functions) ++
      asksBehind functions node :=
  Node.gather_eq node ()

theorem requests_bare : requests functions node.bare = requests functions node :=
  Node.gather_bare (fun _ _ => rfl) (fun _ node => by simp [asksAhead, asks])
    (fun _ node => by simp [asksBehind, asks]) node ()

variable {functions node}

/-- The state after some requests. -/
def State.served (state : State) (asked : List Request) : State :=
  { state with names := asked.foldl Generator.serve state.names }

theorem State.served_append (state : State) (asked others : List Request) :
    state.served (asked ++ others) = (state.served asked).served others := by
  simp only [served, List.foldl_append]

theorem State.served_asks (state : State) (node : Node) :
    state.served (asks state.functions node) = state.allocate node := by
  unfold served asks allocate
  split <;> rfl

theorem foldl_served (nodes : List Node) (state : State) :
    nodes.foldl (fun state node => state.served (requests state.functions node)) state =
      state.served (nodes.flatMap (requests state.functions)) := by
  induction nodes generalizing state with
  | nil => rfl
  | cons node nodes ih =>
    rw [List.foldl_cons, ih, List.flatMap_cons, State.served_append]
    rfl

theorem before_served (state : State) (node : Node) :
    editor.before node state = (.ok (), state.served (asksAhead state.functions node)) := by
  by_cases hfunction : node.tag = .functionDefinition ∨ node.tag = .functionPrototype
  · rcases hfunction with htag | htag <;> simp only [editor, asksAhead, htag] <;>
      rw [State.served_asks] <;> rfl
  · have hbefore : editor.before node = pure () ∧ asksAhead state.functions node = [] := by
      simp only [editor, asksAhead]
      constructor <;> split <;> simp_all
    rw [hbefore.1, hbefore.2]
    rfl

theorem renameFunction_served (node : Node) (change : Change) (state : State) :
    ∃ change', renameFunction node change state =
      (.ok change', state.served (asks state.functions node)) := by
  have hget : (get : Walk State State) state = (.ok state, state) := rfl
  rw [renameFunction, run_bind hget, State.served_asks, State.allocate]
  split <;> exact ⟨_, rfl⟩

theorem editing_served {descend : Walk State Change} {change : Change} {state state' : State}
    (hdescend : descend state = (.ok change, state')) :
    ∃ change', editor.editing node descend state =
      (.ok (some change'), state'.served (asksBehind state'.functions node)) := by
  by_cases hfunction :
      node.tag = .functionDefinition ∨ node.tag = .functionPrototype ∨ node.tag = .call
  · have hbehind : asksBehind state'.functions node = asks state'.functions node := by
      rcases hfunction with htag | htag | htag <;> simp only [asksBehind, htag]
    obtain ⟨change', hrun⟩ := renameFunction_served node change state'
    refine ⟨change', ?_⟩
    rw [hbehind]
    rcases hfunction with htag | htag | htag <;> simp only [editor, htag] <;>
      rw [run_bind hdescend, run_bind hrun] <;> rfl
  · have hediting : editor.editing node descend = do return some (← descend) := by
      simp only [editor]
      refine congrArg (descend >>= ·) (funext fun change => ?_)
      split <;> simp_all
    have hnone : asksBehind state'.functions node = [] := by
      unfold asksBehind
      split <;> simp_all
    refine ⟨change, ?_⟩
    rw [hediting, run_bind hdescend, hnone]
    rfl

/-- Editing a well-shaped tree serves the requests of the tree. -/
theorem leaves_served (hfits : node.Every (fun node => node.fitsLayout = true)) :
    editor.Leaves (fun node state => state.served (requests state.functions node)) node := by
  refine Editor.leaves_of_local (fun node state => ?_) hfits
  refine ⟨_, before_served state node, fun {descend change} hdescend => ?_⟩
  rw [foldl_served] at hdescend
  obtain ⟨change', hrun⟩ := editing_served hdescend
  refine ⟨change', _, hrun, ?_⟩
  rw [requests_eq, State.served_append, State.served_append]
  rfl

/-- The generator after the renaming of functions. -/
theorem rename_names {root : Node} (hroot : root.Grammatical) {start : Nat} {census : Census}
    (hcensus : Census.ofNode root = .ok census) {change : Change} {names : Generator}
    (hrun : rename start root = .ok (change, names)) :
    names = (requests census.renamableFunctions root).foldl Generator.serve
      (generator census start) := by
  obtain ⟨change', happly⟩ := (leaves_served hroot.fitsLayout).apply
    { functions := census.renamableFunctions, names := generator census start }
  rw [rename, hcensus] at hrun
  simp only [bind, Except.bind, happly] at hrun
  cases hrun
  rfl

end FunctionNames

/-! ### Variables and structures -/

namespace VariableNames

variable (selection : Selection) (depth : Nat) (node : Node)

/-- What a node asks for if its value is a selected variable. -/
def asksVariable : List Request :=
  if (node.tag != .declarator || depth == 0) && selection.variableNames.contains node.value then
    [.symbol node.value]
  else []

/-- What a node asks for if its value is a selected structure. -/
def asksStruct : List Request :=
  if selection.structs.contains node.value then [.definition node.value] else []

/-- What a node asks for before its children. -/
def asksAhead : List Request :=
  match node.tag with
  | .structDefinition => asksStruct selection node
  | .declarator | .parameter => asksVariable selection depth node
  | _ => []

/-- What a node asks for after its children. -/
def asksBehind : List Request :=
  match node.tag with
  | .declarator | .parameter | .identifier => asksVariable selection depth node
  | .structDefinition | .typeName | .call => asksStruct selection node
  | _ => []

/-- What a tree asks for, in order, with `depth` structures around it. -/
def requests : List Request :=
  node.gather (fun depth node => node.innerDepth depth) (asksAhead selection)
    (asksBehind selection) depth

theorem requests_eq : requests selection depth node =
    asksAhead selection depth node ++
      node.children.flatMap (requests selection (node.innerDepth depth)) ++
      asksBehind selection depth node :=
  Node.gather_eq node depth

theorem requests_bare : requests selection depth node.bare = requests selection depth node :=
  Node.gather_bare (fun _ node => by simp [Node.innerDepth])
    (fun _ node => by simp [asksAhead, asksStruct, asksVariable])
    (fun _ node => by simp [asksBehind, asksStruct, asksVariable]) node depth

variable {selection depth node}

/-- The state after some requests. -/
def State.served (state : State) (asked : List Request) : State :=
  { state with names := asked.foldl Generator.serve state.names }

theorem State.served_append (state : State) (asked others : List Request) :
    state.served (asked ++ others) = (state.served asked).served others := by
  simp only [served, List.foldl_append]

theorem State.served_asksVariable (state : State) (node : Node) :
    state.served (asksVariable state.selection state.structDepth node) = state.allocate node := by
  unfold served asksVariable allocate renames
  split <;> rfl

theorem foldl_served (nodes : List Node) (state : State) :
    nodes.foldl (fun state node =>
        state.served (requests state.selection state.structDepth node)) state =
      state.served (nodes.flatMap (requests state.selection state.structDepth)) := by
  induction nodes generalizing state with
  | nil => rfl
  | cons node nodes ih =>
    rw [List.foldl_cons, ih, List.flatMap_cons, State.served_append]
    rfl

theorem renameVariable_served (node : Node) (change : Change) (state : State) :
    ∃ change', renameVariable node change state =
      (.ok change', state.served (asksVariable state.selection state.structDepth node)) := by
  rw [renameVariable, run_bind (run_get state), State.served_asksVariable, State.allocate]
  split <;> exact ⟨_, rfl⟩

theorem renameStruct_served (node : Node) (change : Change) (state : State) :
    ∃ change', renameStruct node change state =
      (.ok change', state.served (asksStruct state.selection node)) := by
  rw [renameStruct, run_bind (run_get state), State.served, asksStruct]
  split <;> exact ⟨_, rfl⟩

/-- The state within a node. -/
def State.within (state : State) (node : Node) : State :=
  { state.served (asksAhead state.selection state.structDepth node) with
    structDepth := node.innerDepth state.structDepth }

theorem before_within (state : State) (node : Node) :
    editor.before node state = (.ok (), state.within node) := by
  unfold State.within Node.innerDepth
  by_cases hstruct : node.tag = .structDefinition
  · simp only [editor, asksAhead, hstruct, State.served, asksStruct]
    rw [run_modify, State.enterStruct]
    split <;> rfl
  · rw [if_neg hstruct]
    by_cases hdeclares : node.tag = .declarator ∨ node.tag = .parameter
    · have hahead : asksAhead state.selection state.structDepth node =
          asksVariable state.selection state.structDepth node := by
        rcases hdeclares with htag | htag <;> simp only [asksAhead, htag]
      rw [hahead, State.served_asksVariable]
      rcases hdeclares with htag | htag <;> simp only [editor, htag] <;>
        rw [run_modify, State.allocate] <;> split <;> rfl
    · have hahead : asksAhead state.selection state.structDepth node = [] := by
        unfold asksAhead
        split <;> simp_all
      rw [before_of_other hstruct hdeclares, hahead]
      rfl

theorem editing_served (node : Node) (depth : Nat) {descend : Walk State Change} {change : Change}
    {state state' : State} (hdescend : descend state = (.ok change, state'))
    (hdepth : node.tag ≠ .structDefinition → state'.structDepth = depth) :
    ∃ change', editor.editing node descend state =
      (.ok (some change'), state'.served (asksBehind state'.selection depth node)) := by
  by_cases hvariable : node.tag = .declarator ∨ node.tag = .parameter ∨ node.tag = .identifier
  · have hplain : state'.structDepth = depth :=
      hdepth (by rcases hvariable with htag | htag | htag <;> rw [htag] <;> decide)
    have hbehind : asksBehind state'.selection depth node =
        asksVariable state'.selection state'.structDepth node := by
      rw [hplain]
      rcases hvariable with htag | htag | htag <;> simp only [asksBehind, htag]
    obtain ⟨change', hrun⟩ := renameVariable_served node change state'
    refine ⟨change', ?_⟩
    rw [hbehind]
    rcases hvariable with htag | htag | htag <;> simp only [editor, htag] <;>
      rw [run_bind hdescend, run_bind hrun] <;> rfl
  · by_cases hstruct : node.tag = .structDefinition ∨ node.tag = .typeName ∨ node.tag = .call
    · have hbehind : asksBehind state'.selection depth node =
          asksStruct state'.selection node := by
        rcases hstruct with htag | htag | htag <;> simp only [asksBehind, htag]
      obtain ⟨change', hrun⟩ := renameStruct_served node change state'
      refine ⟨change', ?_⟩
      rw [hbehind]
      rcases hstruct with htag | htag | htag <;> simp only [editor, htag] <;>
        rw [run_bind hdescend, run_bind hrun] <;> rfl
    · have hnone : asksBehind state'.selection depth node = [] := by
        unfold asksBehind
        split <;> simp_all
      refine ⟨change, ?_⟩
      rw [editing_of_other hvariable hstruct, run_bind hdescend, hnone]
      rfl

theorem after_served (state : State) (node : Node) :
    editor.after node { state with structDepth := node.innerDepth state.structDepth } =
      (.ok (), state) := by
  by_cases htag : node.tag = .structDefinition
  · simp only [editor, Node.innerDepth, if_pos htag]
    rfl
  · simp only [editor, Node.innerDepth, if_neg htag]
    rfl

/-- Editing a well-shaped tree serves the requests of the tree. -/
theorem leaves_served (hfits : node.Every (fun node => node.fitsLayout = true)) :
    editor.Leaves
      (fun node state => state.served (requests state.selection state.structDepth node)) node := by
  refine Editor.leaves_of_local (fun node state => ?_) hfits
  refine ⟨state.within node, before_within state node, fun {descend change} hdescend => ?_⟩
  rw [foldl_served] at hdescend
  obtain ⟨change', hrun⟩ := editing_served node state.structDepth hdescend fun hplain => by
    simp only [State.served, State.within, Node.innerDepth, if_neg hplain]
  refine ⟨change', _, hrun, ?_⟩
  rw [requests_eq]
  refine Eq.trans ?_ (after_served _ node)
  simp only [State.served, State.within, List.foldl_append]

/-- The generator after the renaming of variables and structures. -/
theorem rename_names {selection : Selection} {names names' : Generator} {root : Node}
    (hfits : root.Every (fun node => node.fitsLayout = true)) {change : Change}
    (hrun : rename selection names root = .ok (change, names')) :
    names' = (requests selection 0 root).foldl Generator.serve names := by
  obtain ⟨change', happly⟩ := (leaves_served hfits).apply
    { selection := selection, names := names }
  rw [rename, happly] at hrun
  cases hrun
  rfl

end VariableNames

end GlslShrink
