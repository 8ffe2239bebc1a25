import GlslShrink.Proofs.Pass.Rebuilt

/-!
What a tree says apart from its braces. `Node.erase` keeps the statements and what controls them,
and forgets blocks and empty statements. `Node.scan` walks through a tree in preorder and tells for
every identifier which declarator or parameter it refers to under block scoping: parameters, blocks,
`for` loops and the arms and bodies of control statements open a block, and a name is visible from
after its declarator to the end of the block. The identifiers are listed, and the declarators and
parameters numbered, as they come in preorder (`CountsInPreorder`). Of the statements only
declarations leave names behind (`still_statement`), so the braces around other statements hide
nothing.
-/

set_option autoImplicit false

namespace GlslShrink

/-- Whether the place holds the arm or the body of a control statement or of a function. -/
def Tag.isBody (tag : Tag) (i : Nat) : Bool :=
  match tag with
  | .ifStatement => i == 1 || i == 2
  | .forLoop => i == 3
  | .whileLoop => i == 1
  | .doWhileLoop => i == 0
  | .functionDefinition => i == 2
  | _ => false

/-- Replacing an entry by one that counts for the same changes nothing. -/
theorem mapIdx_set_of_eq {α β : Type} {f : Nat → α → β} {l : List α} {i : Nat} {a b : α}
    (hget : l[i]? = some a) (hsame : f i b = f i a) : (l.set i b).mapIdx f = l.mapIdx f := by
  apply List.ext_getElem?
  intro j
  rw [List.getElem?_mapIdx, List.getElem?_mapIdx]
  by_cases hij : i = j
  · subst hij
    rw [List.getElem?_set_self (List.getElem?_eq_some_iff.mp hget).1, hget, Option.map_some,
      Option.map_some, hsame]
  · rw [List.getElem?_set_ne hij]

namespace Node

/-! ### Statements without braces -/

/-- The statements that a statement stands for: those of a block, and nothing for an empty one. -/
def dissolve (statement : Node) : List Node :=
  match statement.tag with
  | .scope => statement.list 0
  | .expressionStatement => if (statement.child? 0).isSome then [statement] else []
  | _ => [statement]

/-- A place without the braces and the empty statements in it. An arm or a body is the list of its
statements. -/
def outlineSlot (isBody : Bool) : Slot Node → Slot Node
  | .absent => .absent
  | .one child => if isBody then .many child.dissolve else .one child
  | .many children => .many (children.flatMap dissolve)

/-- The tree without the braces and the empty statements below it, and without marks. -/
def outline : Node → Node :=
  fold fun node slots => new node.tag node.value node.qualifiers
    (slots.mapIdx fun i slot => outlineSlot (node.tag.isBody i) slot)

/-- The statements of a tree without braces, down to the last arm and body. -/
def erase (node : Node) : List Node :=
  node.outline.dissolve

theorem outline_eq (node : Node) :
    node.outline = new node.tag node.value node.qualifiers
      ((node.slots.map (Slot.map outline)).mapIdx
        fun i slot => outlineSlot (node.tag.isBody i) slot) :=
  fold_eq _ node

/-! ### Names -/

/-- What was met on a walk through a tree in preorder. -/
structure Scan where
  /-- The names of the declarators and parameters. -/
  declared : List String := []
  /-- The names in sight with the numbers of their declarators or parameters, the last one first. -/
  visible : List (String × Nat) := []
  /-- The identifiers, each with the number of what it refers to. -/
  found : List (String × Option Nat) := []

namespace Scan

/-- What is declared inside is out of sight afterwards. -/
def block (inside : Scan → Scan) (state : Scan) : Scan :=
  { inside state with visible := state.visible }

def inTurn (parts : List (Scan → Scan)) (state : Scan) : Scan :=
  parts.foldl (fun state part => part state) state

def place (isBody : Bool) (slot : Slot (Scan → Scan)) : Scan → Scan :=
  if isBody then block (inTurn slot.toList) else inTurn slot.toList

/-- Identifiers refer to what is visible; declarators and parameters are numbered as they come. -/
def enter (node : Node) (state : Scan) : Scan :=
  match node.tag with
  | .identifier =>
    { state with found := state.found ++ [(node.value, state.visible.lookup node.value)] }
  | .declarator | .parameter => { state with declared := state.declared ++ [node.value] }
  | _ => state

/-- The names in sight after a node, from the state before it and the names in sight at its end.
The members of a structure can be taken to be hidden outside of it or not. -/
def visibleAfter (hidden : Bool) (node : Node) (state : Scan) (visible : List (String × Nat)) :
    List (String × Nat) :=
  match node.tag with
  | .declarator | .parameter => (node.value, state.declared.length) :: visible
  | .scope | .forLoop | .functionPrototype | .functionDefinition => state.visible
  | .structDefinition => if hidden then state.visible else visible
  | _ => visible

/-- A node with what is inside it. -/
def around (hidden : Bool) (node : Node) (inside : Scan → Scan) (state : Scan) : Scan :=
  let inner := inside (enter node state)
  { inner with visible := visibleAfter hidden node state inner.visible }

end Scan

open Scan

def scan (hidden : Bool) : Node → Scan → Scan :=
  fold fun node slots =>
    around hidden node (inTurn (slots.mapIdx fun i slot => place (node.tag.isBody i) slot))

/-- The identifiers of a tree in preorder, each with the number, in preorder, of the declarator or
parameter it refers to. -/
def occurrences (hidden : Bool) (root : Node) : List (String × Option Nat) :=
  (root.scan hidden {}).found

variable {hidden : Bool} {node : Node}

/-- What is inside a node, place by place. -/
def scanPlaces (hidden : Bool) (node : Node) : Scan → Scan :=
  inTurn ((node.slots.map (Slot.map (scan hidden))).mapIdx fun i slot =>
    place (node.tag.isBody i) slot)

theorem scan_eq (hidden : Bool) (node : Node) :
    node.scan hidden = around hidden node (node.scanPlaces hidden) :=
  fold_eq _ node

/-! ### Preorder -/

section Preorder

variable {α : Type} {measure : Scan → List α} {gain : Node → List α}

theorem measure_inTurn {nodes : List Node}
    (h : ∀ node ∈ nodes, ∀ state, measure (node.scan hidden state) = measure state ++ gain node)
    (state : Scan) :
    measure (inTurn (nodes.map (scan hidden)) state) = measure state ++ nodes.flatMap gain := by
  induction nodes generalizing state with
  | nil => simp [inTurn]
  | cons node nodes ih =>
    obtain ⟨hnode, hnodes⟩ := List.forall_mem_cons.mp h
    have hrest := ih hnodes (node.scan hidden state)
    rw [hnode, List.append_assoc] at hrest
    exact hrest

/-- What the children add, the places add in their order. -/
theorem measure_places (hvisible : ∀ state visible, measure { state with visible } = measure state)
    {slots : List (Slot Node)}
    (h : ∀ child ∈ slots.flatMap Slot.toList, ∀ state,
      measure (child.scan hidden state) = measure state ++ gain child)
    (isBody : Nat → Bool) (state : Scan) :
    measure (inTurn ((slots.map (Slot.map (scan hidden))).mapIdx fun i slot =>
        place (isBody i) slot) state) =
      measure state ++ (slots.flatMap Slot.toList).flatMap gain := by
  induction slots generalizing isBody state with
  | nil => simp [inTurn]
  | cons slot slots ih =>
    rw [List.flatMap_cons, List.forall_mem_append] at h
    have hfirst : measure (place (isBody 0) (slot.map (scan hidden)) state) =
        measure state ++ slot.toList.flatMap gain := by
      rw [place, Slot.toList_map]
      by_cases hbody : isBody 0 = true
      · rw [if_pos hbody, block, hvisible, measure_inTurn h.1]
      · rw [if_neg hbody, measure_inTurn h.1]
    have hrest := ih h.2 (fun i => isBody (i + 1)) (place (isBody 0) (slot.map (scan hidden)) state)
    rw [hfirst, List.append_assoc, ← List.flatMap_append] at hrest
    rw [List.map_cons, List.mapIdx_cons, List.flatMap_cons]
    exact hrest

/-- What entering a node adds, a walk adds for every node in preorder. -/
theorem measure_scan (hidden : Bool) (measure : Scan → List α) (gain : Node → List α)
    (hvisible : ∀ state visible, measure { state with visible } = measure state)
    (henter : ∀ node state, measure (enter node state) = measure state ++ gain node)
    (node : Node) (state : Scan) :
    measure (node.scan hidden state) = measure state ++ node.preorder.flatMap gain := by
  induction node using induct generalizing state with
  | h node ih =>
    have hplaces := measure_places hvisible ih node.tag.isBody (enter node state)
    rw [scan_eq, around, hvisible, scanPlaces, hplaces, henter, preorder_eq, List.flatMap_cons,
      children, List.append_assoc, List.flatMap_assoc (l := node.slots.flatMap Slot.toList)]

end Preorder

theorem flatMap_value_of (p : Node → Prop) [DecidablePred p] (nodes : List Node) :
    nodes.flatMap (fun node => if p node then [node.value] else []) =
      (nodes.filter fun node => p node).map value := by
  induction nodes with
  | nil => rfl
  | cons node nodes ih => by_cases h : p node <;> simp [h, ih]

theorem map_fst_occurrences (hidden : Bool) (root : Node) :
    (root.occurrences hidden).map Prod.fst =
      (root.preorder.filter fun node => node.tag = .identifier).map value := by
  have henter : ∀ node state, (enter node state).found.map Prod.fst =
      state.found.map Prod.fst ++ (if node.tag = .identifier then [node.value] else []) := by
    intro node state
    rw [enter]
    split <;> simp_all
  have hscan := measure_scan hidden (fun state => state.found.map Prod.fst) _ (fun _ _ => rfl)
    henter root {}
  rw [occurrences, ← flatMap_value_of]
  exact hscan

theorem declared_scan (hidden : Bool) (root : Node) :
    (root.scan hidden {}).declared =
      (root.preorder.filter fun node => node.tag = .declarator ∨ node.tag = .parameter).map
        value := by
  have henter : ∀ node state, (enter node state).declared = state.declared ++
      (if node.tag = .declarator ∨ node.tag = .parameter then [node.value] else []) := by
    intro node state
    rw [enter]
    split <;> simp_all
  rw [← flatMap_value_of]
  exact measure_scan hidden Scan.declared _ (fun _ _ => rfl) henter root {}

/-- A walk lists the identifiers of the tree and numbers its declarators and parameters, both in
preorder. -/
structure CountsInPreorder (hidden : Bool) (root : Node) : Prop where
  identifiers : (root.occurrences hidden).map Prod.fst =
    (root.preorder.filter fun node => node.tag = .identifier).map value
  declared : (root.scan hidden {}).declared =
    (root.preorder.filter fun node => node.tag = .declarator ∨ node.tag = .parameter).map value

theorem countsInPreorder (hidden : Bool) (root : Node) : root.CountsInPreorder hidden :=
  ⟨map_fst_occurrences hidden root, declared_scan hidden root⟩

/-! ### Statements that declare nothing -/

/-- The node leaves the names in sight as they were. -/
def Still (hidden : Bool) (node : Node) : Prop :=
  ∀ state, (node.scan hidden state).visible = state.visible

theorem visible_inTurn {parts : List (Scan → Scan)}
    (h : ∀ part ∈ parts, ∀ state, (part state).visible = state.visible) (state : Scan) :
    (inTurn parts state).visible = state.visible := by
  induction parts generalizing state with
  | nil => rfl
  | cons part parts ih =>
    obtain ⟨hpart, hparts⟩ := List.forall_mem_cons.mp h
    rw [← hpart state]
    exact ih hparts (part state)

theorem visible_inTurn_scan {nodes : List Node} (h : ∀ node ∈ nodes, Still hidden node)
    (state : Scan) : (inTurn (nodes.map (scan hidden)) state).visible = state.visible := by
  apply visible_inTurn
  intro part hpart
  obtain ⟨node, hnode, rfl⟩ := List.mem_map.mp hpart
  exact h node hnode

/-- What is declared in an arm or a body does not leave it. -/
theorem still_of_places (hdeclarator : node.tag ≠ .declarator) (hparameter : node.tag ≠ .parameter)
    (h : ∀ i slot, node.slots[i]? = some slot → node.tag.isBody i = false →
      ∀ child ∈ slot.toList, Still hidden child) : Still hidden node := by
  intro state
  have hinside : (node.scanPlaces hidden (enter node state)).visible = state.visible := by
    have henter : (enter node state).visible = state.visible := by
      rw [enter]
      split <;> rfl
    rw [← henter]
    apply visible_inTurn
    intro part hpart
    obtain ⟨i, hi, rfl⟩ := List.mem_mapIdx.mp hpart
    intro state
    rw [List.length_map] at hi
    rw [place, List.getElem_map, Slot.toList_map]
    by_cases hbody : node.tag.isBody i = true
    · rw [if_pos hbody]
      rfl
    · rw [if_neg hbody]
      exact visible_inTurn_scan
        (h i _ (List.getElem?_eq_getElem hi) (Bool.not_eq_true _ ▸ hbody)) state
  rw [scan_eq, around]
  dsimp only
  rw [hinside, visibleAfter]
  split <;> simp_all

theorem still_of_tag (htag : node.tag = .scope ∨ node.tag = .forLoop) : Still hidden node := by
  intro state
  rw [scan_eq, around]
  rcases htag with htag | htag <;> simp only [visibleAfter, htag]

/-- Outside of arms and bodies a statement holds expressions, unless it is a declaration, a block or
a loop with a declaration; and so does an expression. -/
theorem allowed_eq_isExpression {tag : Tag}
    (htag : tag.isExpression = true ∨ tag.isStatement = true) (hdeclaration : tag ≠ .declaration)
    (hscope : tag ≠ .scope) (hfor : tag ≠ .forLoop) {i : Nat} {allowed : Tag → Bool}
    (hplace : tag.places[i]? = some allowed) (hbody : tag.isBody i = false) :
    allowed = Tag.isExpression := by
  rcases i with _ | _ | _ | i <;> cases tag <;>
    first
    | exact (Option.some.inj hplace).symm
    | exact absurd rfl hdeclaration
    | exact absurd rfl hscope
    | exact absurd rfl hfor
    | exact absurd htag (by decide)
    | exact absurd hbody (by decide)
    | exact absurd hplace (by simp [Tag.places])

theorem isExpression_of_place (hgrammar : node.fitsGrammar = true)
    (htag : node.tag.isExpression = true ∨ node.tag.isStatement = true)
    (hdeclaration : node.tag ≠ .declaration) (hscope : node.tag ≠ .scope)
    (hfor : node.tag ≠ .forLoop) {i : Nat} {slot : Slot Node} (hslot : node.slots[i]? = some slot)
    (hbody : node.tag.isBody i = false) {child : Node} (hchild : child ∈ slot.toList) :
    child.tag.isExpression = true := by
  obtain ⟨allowed, hplace, hall⟩ := exists_place hgrammar hslot
  rw [← allowed_eq_isExpression htag hdeclaration hscope hfor hplace hbody]
  exact hall child hchild

theorem ne_of_isExpression {tag : Tag} (h : tag.isExpression = true) :
    tag ≠ .declaration ∧ tag ≠ .scope ∧ tag ≠ .forLoop ∧ tag ≠ .declarator ∧ tag ≠ .parameter := by
  refine ⟨?_, ?_, ?_, ?_, ?_⟩ <;> rintro rfl <;> cases h

theorem still_expression (hgrammar : node.Grammatical) (htag : node.tag.isExpression = true) :
    Still hidden node := by
  induction node using induct with
  | h node ih =>
    obtain ⟨hdeclaration, hscope, hfor, hdeclarator, hparameter⟩ := ne_of_isExpression htag
    apply still_of_places hdeclarator hparameter
    intro i slot hslot hbody child hchild
    have hmem : child ∈ node.children :=
      List.mem_flatMap.mpr ⟨slot, List.mem_of_getElem? hslot, hchild⟩
    exact ih child hmem (hgrammar.child hmem) (isExpression_of_place hgrammar.root (Or.inl htag)
      hdeclaration hscope hfor hslot hbody hchild)

/-- Of the statements only declarations leave names behind. -/
theorem still_statement (hgrammar : node.Grammatical) (htag : node.tag.isStatement = true)
    (hdeclaration : node.tag ≠ .declaration) : Still hidden node := by
  by_cases hscope : node.tag = .scope
  · exact still_of_tag (Or.inl hscope)
  by_cases hfor : node.tag = .forLoop
  · exact still_of_tag (Or.inr hfor)
  have hdeclarator : node.tag ≠ .declarator := fun h => by rw [h] at htag; cases htag
  have hparameter : node.tag ≠ .parameter := fun h => by rw [h] at htag; cases htag
  apply still_of_places hdeclarator hparameter
  intro i slot hslot hbody child hchild
  apply still_expression (hgrammar.child ?_)
  · exact isExpression_of_place hgrammar.root (Or.inr htag) hdeclaration hscope hfor hslot hbody
      hchild
  · exact List.mem_flatMap.mpr ⟨slot, List.mem_of_getElem? hslot, hchild⟩

end Node

end GlslShrink
