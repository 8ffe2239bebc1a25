import GlslShrink.Analysis.Census
import GlslShrink.Proofs.Printing.Printable
import GlslShrink.Proofs.Traversal.Laws

/-!
What the census of a tree contains. The census is a fold over the sites of the tree, its nodes in
preorder with the number of structures around them (`ofNode_eq`), and every site adds certain names
to each part of it (`noted_eq`). From this follows which sites put a name among the variables, the
structures and the interface (`mem_variableNames_iff`, `mem_structs_iff`, `mem_interface_iff`) and
which nodes put it among the functions, the types and the words of directives (`mem_functions_iff`,
`mem_types_iff`, `mem_directiveWords_iff`), that the variables, structures and functions are among
the names, and that the interface consists of variables.
-/

set_option autoImplicit false

namespace GlslShrink

/-! ### Sites -/

namespace Node

/-- How many structures are around the children of a node that has `depth` of them around it. -/
def innerDepth (node : Node) (depth : Nat) : Nat :=
  if node.tag = .structDefinition then depth + 1 else depth

/-- All nodes of a tree, each before its children and with the number of structures around it. -/
def sites : Node → Nat → List (Nat × Node) :=
  fold fun node slots depth =>
    (depth, node) ::
      (slots.flatMap Slot.toList).flatMap (fun below => below (node.innerDepth depth))

theorem sites_eq (node : Node) (depth : Nat) :
    node.sites depth =
      (depth, node) :: node.children.flatMap (fun child => child.sites (node.innerDepth depth)) := by
  rw [sites, fold_eq, flatMap_toList_map, children, List.flatMap_map]

theorem sites_bare (node : Node) (depth : Nat) :
    node.bare.sites depth = (node.sites depth).map fun site => (site.1, site.2.bare) := by
  induction node using induct generalizing depth with
  | h node ih =>
    have hdepth : node.bare.innerDepth depth = node.innerDepth depth := by
      rw [innerDepth, bare_tag, innerDepth]
    rw [sites_eq, sites_eq node, List.map_cons, List.map_flatMap, children_bare, List.flatMap_map,
      hdepth]
    simp only [List.flatMap_def]
    rw [List.map_congr_left fun child hchild => ih child hchild (node.innerDepth depth)]

theorem site_self (node : Node) (depth : Nat) : (depth, node) ∈ node.sites depth := by
  rw [sites_eq]
  exact List.mem_cons_self

theorem site_child {node child : Node} (hchild : child ∈ node.children) {depth : Nat}
    {site : Nat × Node} (hsite : site ∈ child.sites (node.innerDepth depth)) :
    site ∈ node.sites depth := by
  rw [sites_eq]
  exact List.mem_cons_of_mem _ (List.mem_flatMap.mpr ⟨child, hchild, hsite⟩)

theorem map_snd_sites (node : Node) (depth : Nat) :
    (node.sites depth).map Prod.snd = node.preorder := by
  induction node using induct generalizing depth with
  | h node ih =>
    rw [sites_eq, preorder_eq, List.map_cons, List.map_flatMap]
    exact congrArg (node :: ·) (List.flatMap_congr fun child hchild => ih child hchild _)

theorem mem_preorder_of_site {node : Node} {depth : Nat} {site : Nat × Node}
    (hsite : site ∈ node.sites depth) : site.2 ∈ node.preorder := by
  rw [← map_snd_sites node depth]
  exact List.mem_map_of_mem hsite

/-- The children of a site are sites. -/
theorem site_of_child_site {root : Node} {start : Nat} {site : Nat × Node}
    (hsite : site ∈ root.sites start) {child : Node} (hchild : child ∈ site.2.children) :
    (site.2.innerDepth site.1, child) ∈ root.sites start := by
  induction root using induct generalizing start with
  | h root ih =>
    have hcases := hsite
    rw [sites_eq, List.mem_cons, List.mem_flatMap] at hcases
    rcases hcases with rfl | ⟨middle, hmiddle, hbelow⟩
    · exact site_child hchild (site_self _ _)
    · exact site_child hmiddle (ih middle hmiddle hbelow)

theorem mem_preorder_of_child {root node child : Node} (hnode : node ∈ root.preorder)
    (hchild : child ∈ node.children) : child ∈ root.preorder := by
  rw [← map_snd_sites root 0] at hnode
  obtain ⟨site, hsite, rfl⟩ := List.mem_map.mp hnode
  exact mem_preorder_of_site (site_of_child_site hsite hchild)

end Node

namespace Census

/-! ### The census as a fold -/

/-- The census after a site. -/
def noted (census : Census) (site : Nat × Node) : Census :=
  if site.2.tag = .declaration then (State.declare ⟨census, site.1⟩ site.2).census
  else (State.enter ⟨census, site.1⟩ site.2).census

/-- The state after a whole tree. -/
def State.after (state : State) (node : Node) : State :=
  { state with census := (node.sites state.structDepth).foldl noted state.census }

theorem foldl_after (nodes : List Node) (state : State) :
    nodes.foldl State.after state =
      { state with
        census := (nodes.flatMap (fun node => node.sites state.structDepth)).foldl noted
          state.census } := by
  induction nodes generalizing state with
  | nil => rfl
  | cons node nodes ih =>
    rw [List.foldl_cons, ih, List.flatMap_cons, List.foldl_append]
    rfl

theorem State.enter_eq {state : State} {node : Node} (htag : node.tag ≠ .declaration) :
    state.enter node =
      ⟨noted state.census (state.structDepth, node), node.innerDepth state.structDepth⟩ := by
  rw [noted, if_neg htag]
  cases htag' : node.tag <;> simp [enter, enterStruct, update, Node.innerDepth, htag'] <;> split <;> rfl

theorem State.declare_eq {state : State} {node : Node} (htag : node.tag = .declaration) :
    state.declare node = { state with census := noted state.census (state.structDepth, node) } := by
  rw [noted, if_pos htag, declare]
  split <;> rfl

/-- The state of a visit within a node. -/
def State.inside (state : State) (node : Node) : State :=
  ⟨noted state.census (state.structDepth, node), node.innerDepth state.structDepth⟩

theorem visiting_run {node : Node} {descend : Walk State Unit} {state state' : State}
    (h : descend (state.inside node) = (.ok (), state')) :
    visitor.visiting node descend (state.enter node) = (.ok (), state') := by
  by_cases htag : node.tag = .declaration
  · have henter : state.enter node = state := by rw [State.enter, htag]
    have hinside : state.declare node = state.inside node := by
      rw [State.declare_eq htag, State.inside, Node.innerDepth, if_neg (by rw [htag]; decide)]
    simp only [visitor, if_pos htag]
    rw [run_bind (run_modify _ _), henter, hinside, h]
  · simp only [visitor, if_neg htag]
    rw [State.enter_eq htag]
    exact h

theorem after_run (node : Node) (census : Census) (depth : Nat) :
    visitor.after node ⟨census, node.innerDepth depth⟩ = (.ok (), ⟨census, depth⟩) := by
  by_cases htag : node.tag = .structDefinition
  · simp only [visitor, if_pos htag, Node.innerDepth]
    rfl
  · simp only [visitor, if_neg htag, Node.innerDepth]
    rfl

/-- A visit of a well-shaped tree succeeds and notes its sites. -/
theorem visit_run {node : Node} (hfits : node.Every (fun node => node.fitsLayout = true))
    (state : State) : visitor.visit node state = (.ok (), state.after node) := by
  induction node using Node.induct generalizing state with
  | h node ih =>
    have hdescend : visitor.visitChildren node (state.inside node) =
        (.ok (), node.children.foldl State.after (state.inside node)) := by
      rw [Visitor.visitChildren, run_bind (Walk.checkLayout_run hfits.root _)]
      exact Visitor.visitSlots_run (fun child hchild => ih child hchild (hfits.child hchild)) _
    rw [foldl_after] at hdescend
    have hbefore : visitor.before node state = (.ok (), state.enter node) := rfl
    rw [Visitor.visit_eq, run_bind hbefore,
      Walk.ensuring_run (visiting_run hdescend) (after_run node _ state.structDepth)]
    rw [State.after, Node.sites_eq, List.foldl_cons]
    rfl

theorem ofNode_eq {root : Node} (hfits : root.Every (fun node => node.fitsLayout = true)) :
    ofNode root = .ok ((root.sites 0).foldl noted {}) := by
  have hrun : (visitor.visit root).runFrom {} = .ok ((), State.after {} root) := by
    simp only [Walk.runFrom, visit_run hfits]
  rw [ofNode, Visitor.collect, hrun]
  rfl

/-! ### What a site adds -/

/-- The site declares the variable. -/
def Declares (site : Nat × Node) (name : String) : Prop :=
  site.2.value = name ∧
    (site.2.tag = .declarator ∧ site.1 = 0 ∨ site.2.tag = .parameter ∧ name ≠ "")

/-- The site defines the structure. -/
def Defines (site : Nat × Node) (name : String) : Prop :=
  site.2.value = name ∧ site.2.tag = .structDefinition ∧ name ≠ ""

/-- The site makes the variable part of the interface. -/
def Exposes (site : Nat × Node) (name : String) : Prop :=
  site.2.tag = .declaration ∧ site.1 = 0 ∧ isInterface site.2 = true ∧
    name ∈ (site.2.list 1).map Node.value

theorem foldl_addDirectiveWord (census : Census) (words : List String) :
    words.foldl addDirectiveWord census =
      { census with
        names := census.names.insertAll words
        directiveWords := census.directiveWords.insertAll words } := by
  induction words generalizing census with
  | nil => rfl
  | cons word words ih =>
    rw [List.foldl_cons, ih]
    rfl

/-- The variable that a site declares, if any. -/
def declared (site : Nat × Node) : List String :=
  match site.2.tag with
  | .declarator => if site.1 = 0 then [site.2.value] else []
  | .parameter => if site.2.value = "" then [] else [site.2.value]
  | _ => []

/-- The structure that a site defines, if any. -/
def defined (site : Nat × Node) : List String :=
  if site.2.tag = .structDefinition ∧ site.2.value ≠ "" then [site.2.value] else []

/-- The value of the site if that has one of the categories. -/
def named (tags : List Tag) (site : Nat × Node) : List String :=
  if site.2.tag ∈ tags then [site.2.value] else []

/-- The words of the site if that is a directive. -/
def directed (site : Nat × Node) : List String :=
  if site.2.tag = .directive then wordsOfDirective site.2.value else []

/-- Whether the site declares part of the interface. -/
def declaresInterface (site : Nat × Node) : Bool :=
  site.2.tag == .declaration && isInterface site.2 && site.1 == 0

/-- The names that a site makes part of the interface. -/
def exposed (site : Nat × Node) : List String :=
  if declaresInterface site then (site.2.list 1).map Node.value else []

/-- The types that a site gives to names of the interface. -/
def exposedTypes (site : Nat × Node) : List String :=
  if declaresInterface site then (site.2.child? 0).toList.map Node.value else []

/-- All names that a site mentions. -/
def mentioned (site : Nat × Node) : List String :=
  declared site ++ defined site ++
    named [.functionDefinition, .functionPrototype, .call, .typeName, .identifier] site ++
    directed site

/-- What a site adds to each part of a census. -/
theorem noted_eq (census : Census) (site : Nat × Node) :
    noted census site =
      { variableNames := census.variableNames.insertAll (declared site)
        interface := census.interface.insertAll (exposed site)
        functions := census.functions.insertAll
          (named [.functionDefinition, .functionPrototype] site)
        structs := census.structs.insertAll (defined site)
        interfaceTypes := census.interfaceTypes.insertAll (exposedTypes site)
        memberTypes := (defined site).foldl
          (fun links name => links.insert name (memberTypesOf site.2)) census.memberTypes
        called := census.called.insertAll (named [.call] site)
        types := census.types.insertAll (named [.typeName] site)
        directiveWords := census.directiveWords.insertAll (directed site)
        names := census.names.insertAll (mentioned site) } := by
  obtain ⟨depth, node⟩ := site
  unfold noted State.declare State.enter State.enterStruct State.update
  cases htag : node.tag with
  | declaration =>
    cases hinterface : isInterface node && depth == 0 <;>
      simp [declared, defined, named, directed, mentioned, exposed, exposedTypes,
        declaresInterface, htag, hinterface, addInterface, NameSet.insertAll]
  | declarator =>
    by_cases hdepth : depth = 0 <;>
      simp [declared, defined, named, directed, mentioned, exposed, exposedTypes,
        declaresInterface, htag, hdepth, addVariable, addName, NameSet.insertAll]
  | parameter | structDefinition =>
    by_cases hempty : node.value = "" <;>
      simp [declared, defined, named, directed, mentioned, exposed, exposedTypes,
        declaresInterface, htag, hempty, addVariable, addStruct, addName, NameSet.insertAll]
  | _ =>
    simp [declared, defined, named, directed, mentioned, exposed, exposedTypes,
      declaresInterface, htag, foldl_addDirectiveWord, addFunction, addCalled, addType, addName,
      NameSet.insertAll]

theorem noted_bare (census : Census) (depth : Nat) (node : Node) :
    noted census (depth, node.bare) = noted census (depth, node) := by
  have hmembers : memberTypesOf node.bare = memberTypesOf node := by
    simp only [memberTypesOf, Node.list_bare, List.filterMap_map, Function.comp_def,
      Node.child?_bare, List.map_filterMap, Option.map_map, Node.bare_value]
  have htypes : ((node.child? 0).map Node.bare).toList.map Node.value =
      (node.child? 0).toList.map Node.value := by
    cases node.child? 0 <;> simp
  have hnames : ((node.list 1).map Node.bare).map Node.value = (node.list 1).map Node.value := by
    rw [List.map_map]
    exact List.map_congr_left fun child _ => Node.bare_value child
  simp only [noted_eq, declared, defined, named, directed, mentioned, exposed, exposedTypes,
    declaresInterface, isInterface, hmembers, htypes, hnames, Node.bare_tag, Node.bare_value,
    Node.bare_qualifiers, Node.list_bare, Node.child?_bare]
  rfl

section Site

variable {site : Nat × Node} {name : String}

theorem mem_declared_iff : name ∈ declared site ↔ Declares site name := by
  unfold declared Declares
  grind

theorem mem_defined_iff : name ∈ defined site ↔ Defines site name := by
  unfold defined Defines
  grind

theorem mem_exposed_iff : name ∈ exposed site ↔ Exposes site name := by
  unfold exposed Exposes declaresInterface
  grind

end Site

/-! ### The census of a tree -/

section Members

variable {root : Node} {census : Census} {name : String}

theorem eq_foldl (hroot : root.Grammatical) (h : ofNode root = .ok census) :
    census = (root.sites 0).foldl noted {} := by
  rw [ofNode_eq hroot.fitsLayout, Except.ok.injEq] at h
  exact h.symm

/-- Trees of the same shape have the same census. -/
theorem ofNode_of_bare {other : Node} (hroot : root.Grammatical) (hother : other.Grammatical)
    (h : other.bare = root.bare) : ofNode other = ofNode root := by
  have hbare : ∀ node : Node,
      (node.bare.sites 0).foldl noted {} = (node.sites 0).foldl noted {} := by
    intro node
    rw [Node.sites_bare, List.foldl_map]
    simp only [noted_bare]
  rw [ofNode_eq hroot.fitsLayout, ofNode_eq hother.fitsLayout, ← hbare, h, hbare]

/-- A part of the census that every site adds certain names to holds what all sites add. -/
theorem mem_field_iff {field : Census → NameSet} {adds : Nat × Node → List String}
    (hstep : ∀ census site, field (noted census site) = (field census).insertAll (adds site))
    (hempty : field {} = []) (hroot : root.Grammatical) (h : ofNode root = .ok census) :
    name ∈ field census ↔ ∃ site ∈ root.sites 0, name ∈ adds site := by
  have hfoldl : ∀ (sites : List (Nat × Node)) (start : Census),
      name ∈ field (sites.foldl noted start) ↔
        name ∈ field start ∨ ∃ site ∈ sites, name ∈ adds site := by
    intro sites
    induction sites with
    | nil => simp
    | cons site sites ih =>
      intro start
      rw [List.foldl_cons, ih, hstep, NameSet.mem_insertAll, or_assoc, List.exists_mem_cons_iff]
  rw [eq_foldl hroot h, hfoldl, hempty]
  simp

theorem mem_variableNames_iff (hroot : root.Grammatical) (h : ofNode root = .ok census) :
    name ∈ census.variableNames ↔ ∃ site ∈ root.sites 0, Declares site name := by
  rw [mem_field_iff (fun census site => by rw [noted_eq]) rfl hroot h]
  simp only [mem_declared_iff]

theorem mem_structs_iff (hroot : root.Grammatical) (h : ofNode root = .ok census) :
    name ∈ census.structs ↔ ∃ site ∈ root.sites 0, Defines site name := by
  rw [mem_field_iff (fun census site => by rw [noted_eq]) rfl hroot h]
  simp only [mem_defined_iff]

theorem mem_interface_iff (hroot : root.Grammatical) (h : ofNode root = .ok census) :
    name ∈ census.interface ↔ ∃ site ∈ root.sites 0, Exposes site name := by
  rw [mem_field_iff (fun census site => by rw [noted_eq]) rfl hroot h]
  simp only [mem_exposed_iff]

theorem mem_functions_iff (hroot : root.Grammatical) (h : ofNode root = .ok census) :
    name ∈ census.functions ↔
      ∃ site ∈ root.sites 0, name ∈ named [.functionDefinition, .functionPrototype] site :=
  mem_field_iff (fun census site => by rw [noted_eq]) rfl hroot h

/-- The sites without their depths are the nodes of the tree. -/
theorem exists_site_iff {P : Node → Prop} :
    (∃ site ∈ root.sites 0, P site.2) ↔ ∃ node ∈ root.preorder, P node := by
  rw [← Node.map_snd_sites root 0]
  constructor
  · rintro ⟨site, hsite, hP⟩
    exact ⟨site.2, List.mem_map_of_mem hsite, hP⟩
  · rintro ⟨node, hnode, hP⟩
    obtain ⟨site, hsite, rfl⟩ := List.mem_map.mp hnode
    exact ⟨site, hsite, hP⟩

theorem mem_types_iff (hroot : root.Grammatical) (h : ofNode root = .ok census) :
    name ∈ census.types ↔ ∃ node ∈ root.preorder, node.tag = .typeName ∧ node.value = name := by
  rw [mem_field_iff (fun census site => by rw [noted_eq]) rfl hroot h, ← exists_site_iff]
  simp [named, eq_comm]

theorem mem_directiveWords_iff (hroot : root.Grammatical) (h : ofNode root = .ok census) :
    name ∈ census.directiveWords ↔ ∃ directive ∈ root.preorder, directive.tag = .directive ∧
      name ∈ wordsOfDirective directive.value := by
  rw [mem_field_iff (fun census site => by rw [noted_eq]) rfl hroot h, ← exists_site_iff]
  simp [directed]

theorem mem_names_iff (hroot : root.Grammatical) (h : ofNode root = .ok census) :
    name ∈ census.names ↔ ∃ site ∈ root.sites 0, name ∈ mentioned site :=
  mem_field_iff (fun census site => by rw [noted_eq]) rfl hroot h

theorem mem_names_of_variable (hroot : root.Grammatical) (h : ofNode root = .ok census)
    (hname : name ∈ census.variableNames) : name ∈ census.names := by
  obtain ⟨site, hsite, hdeclares⟩ := (mem_variableNames_iff hroot h).mp hname
  exact (mem_names_iff hroot h).mpr
    ⟨site, hsite, by simp only [mentioned, List.mem_append, mem_declared_iff, hdeclares, true_or]⟩

theorem mem_names_of_struct (hroot : root.Grammatical) (h : ofNode root = .ok census)
    (hname : name ∈ census.structs) : name ∈ census.names := by
  obtain ⟨site, hsite, hdefines⟩ := (mem_structs_iff hroot h).mp hname
  exact (mem_names_iff hroot h).mpr
    ⟨site, hsite, by simp only [mentioned, List.mem_append, mem_defined_iff, hdefines, true_or,
      or_true]⟩

theorem mem_names_of_function (hroot : root.Grammatical) (h : ofNode root = .ok census)
    (hname : name ∈ census.functions) : name ∈ census.names := by
  obtain ⟨site, hsite, hfunction⟩ := (mem_functions_iff hroot h).mp hname
  refine (mem_names_iff hroot h).mpr ⟨site, hsite, ?_⟩
  simp only [mentioned, named, List.mem_append] at hfunction ⊢
  grind

/-- The names of an interface declaration stand in its declarators, which are sites as well. -/
theorem mem_variableNames_of_interface (hroot : root.Grammatical) (h : ofNode root = .ok census)
    (hname : name ∈ census.interface) : name ∈ census.variableNames := by
  obtain ⟨⟨depth, node⟩, hsite, htag, hdepth, -, hmem⟩ := (mem_interface_iff hroot h).mp hname
  obtain ⟨declarator, hdeclarator, rfl⟩ := List.mem_map.mp hmem
  have hinner := Node.site_of_child_site hsite (Node.mem_children_of_mem_list hdeclarator)
  have hplain : node.innerDepth depth = 0 := by
    rw [Node.innerDepth, htag, if_neg (by decide)]
    exact hdepth
  have hplace : node.tag.places[1]? = some (· == .declarator) := by rw [htag, Tag.places]; rfl
  have htag' := Node.tag_of_mem_list (hroot node (Node.mem_preorder_of_site hsite)) hplace hdeclarator
  exact (mem_variableNames_iff hroot h).mpr
    ⟨_, hinner, rfl, Or.inl ⟨beq_iff_eq.mp htag', hplain⟩⟩

end Members

end Census

end GlslShrink
