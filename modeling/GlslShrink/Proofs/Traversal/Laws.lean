import GlslShrink.Proofs.Tree.Shape
import GlslShrink.Traversal.Editor
import GlslShrink.Traversal.Visitor
import Mathlib.Data.List.Forall2

/-!
What traversals do, from what they do at one node. A visitor that turns the state at every child
into another one folds over the children (`visitSlots_run`). An editor is described by a law
(`Editor.Law`): an invariant of its states, an order in which they grow, and a relation between a
node and what becomes of it that stays true as the state grows. If every node keeps the law once
its children do, the edit of a whole tree succeeds and keeps it (`Editor.Law.edit`).
-/

set_option autoImplicit false

namespace GlslShrink

/-! ### Runs -/

section Runs

variable {ε σ α β : Type} {x : ExceptT ε (StateM σ) α} {f : α → ExceptT ε (StateM σ) β} {s s' : σ}

theorem run_bind {a : α} (h : x s = (.ok a, s')) : (x >>= f) s = f a s' := by
  simp only [bind, ExceptT.bind, ExceptT.mk, StateT.bind, h]
  rfl

theorem run_bind_error {e : ε} (h : x s = (.error e, s')) : (x >>= f) s = (.error e, s') := by
  simp only [bind, ExceptT.bind, ExceptT.mk, StateT.bind, h]
  rfl

/-- A run of two computations that succeeds is a run of the first and one of the second. -/
theorem run_bind_inv {b : β} (h : (x >>= f) s = (.ok b, s')) :
    ∃ a middle, x s = (.ok a, middle) ∧ f a middle = (.ok b, s') := by
  match hx : x s with
  | (.ok a, middle) =>
    rw [run_bind hx] at h
    exact ⟨a, middle, rfl, h⟩
  | (.error e, middle) =>
    rw [run_bind_error hx] at h
    cases h

theorem run_modify (f : σ → σ) (s : σ) :
    (modify f : ExceptT ε (StateM σ) Unit) s = (.ok (), f s) :=
  rfl

theorem Walk.ensuring_run {body : Walk σ α} {after : Walk σ Unit} {s'' : σ} {a : α}
    (hbody : body s = (.ok a, s')) (hafter : after s' = (.ok (), s'')) :
    Walk.ensuring body after s = (.ok a, s'') := by
  simp only [Walk.ensuring, hbody, hafter]

theorem Walk.checkLayout_run {node : Node} (h : node.fitsLayout = true) (s : σ) :
    (Walk.checkLayout node : Walk σ Unit) s = (.ok (), s) := by
  simp only [Walk.checkLayout, h]
  rfl

theorem exists_ok_of_any {result : Except ε α} {p : α → Bool}
    (h : result.toOption.any p = true) : ∃ a, result = .ok a ∧ p a = true := by
  cases result with
  | error e => cases h
  | ok a => exact ⟨a, rfl, h⟩

end Runs

/-! ### Visitors -/

namespace Visitor

variable {σ : Type} {visitor : Visitor σ} {step : Node → σ → σ}

theorem visitList_run {nodes : List Node}
    (h : ∀ node ∈ nodes, ∀ s, visitor.visit node s = (.ok (), step node s)) (s : σ) :
    visitor.visitList nodes s = (.ok (), nodes.foldl (fun s node => step node s) s) := by
  induction nodes generalizing s with
  | nil => rfl
  | cons node nodes ih =>
    obtain ⟨hnode, hnodes⟩ := List.forall_mem_cons.mp h
    rw [visitList, run_bind (hnode s), ih hnodes, List.foldl_cons]

theorem visitSlot_run {slot : Slot Node}
    (h : ∀ node ∈ slot.toList, ∀ s, visitor.visit node s = (.ok (), step node s)) (s : σ) :
    visitor.visitSlot slot s = (.ok (), slot.toList.foldl (fun s node => step node s) s) := by
  cases slot with
  | absent => rfl
  | one child => exact h child (List.mem_singleton.mpr rfl) s
  | many children => exact visitList_run h s

/-- A visit of the places of a node goes through the children in order. -/
theorem visitSlots_run {slots : List (Slot Node)}
    (h : ∀ node ∈ slots.flatMap Slot.toList, ∀ s, visitor.visit node s = (.ok (), step node s))
    (s : σ) :
    visitor.visitSlots slots s =
      (.ok (), (slots.flatMap Slot.toList).foldl (fun s node => step node s) s) := by
  induction slots generalizing s with
  | nil => rfl
  | cons slot slots ih =>
    rw [List.flatMap_cons, List.forall_mem_append] at h
    rw [visitSlots, run_bind (visitSlot_run h.1 s), ih h.2, List.flatMap_cons, List.foldl_append]

end Visitor

/-! ### Editors -/

/-- Two slots hold related children in the same places. -/
inductive Slot.Related {α β : Type} (R : α → β → Prop) : Slot α → Slot β → Prop where
  | absent : Related R .absent .absent
  | one {a : α} {b : β} (h : R a b) : Related R (.one a) (.one b)
  | many {as : List α} {bs : List β} (h : List.Forall₂ R as bs) : Related R (.many as) (.many bs)

/-- The second node is the first one with related children. -/
structure Node.Over (R : Node → Node → Prop) (old new : Node) : Prop where
  tag : new.tag = old.tag
  value : new.value = old.value
  qualifiers : new.qualifiers = old.qualifiers
  slots : List.Forall₂ (Slot.Related R) old.slots new.slots

theorem Slot.Related.imp_mem {α β : Type} {R S : α → β → Prop} {slot : Slot α} {slot' : Slot β}
    (himp : ∀ a ∈ slot.toList, ∀ b, R a b → S a b) (h : slot.Related R slot') :
    slot.Related S slot' := by
  cases h with
  | absent => exact .absent
  | one h => exact .one (himp _ (List.mem_singleton.mpr rfl) _ h)
  | many h =>
    exact .many (((List.forall₂_and_left _ _).mpr ⟨fun _ => id, h⟩).imp fun a b hab =>
      himp a hab.1 b hab.2)

theorem Slot.Related.imp {α β : Type} {R S : α → β → Prop} (himp : ∀ a b, R a b → S a b)
    {slot : Slot α} {slot' : Slot β} (h : slot.Related R slot') : slot.Related S slot' :=
  h.imp_mem fun a _ => himp a

theorem Node.Over.imp_mem {R S : Node → Node → Prop} {old new : Node}
    (himp : ∀ a ∈ old.children, ∀ b, R a b → S a b) (h : old.Over R new) : old.Over S new where
  tag := h.tag
  value := h.value
  qualifiers := h.qualifiers
  slots := ((List.forall₂_and_left _ _).mpr ⟨fun _ => id, h.slots⟩).imp fun _ _ hslot =>
    hslot.2.imp_mem fun a ha => himp a (List.mem_flatMap.mpr ⟨_, hslot.1, ha⟩)

theorem exists_of_forall₂ {α β : Type} {R : α → β → Prop} {as : List α} {bs : List β}
    (h : List.Forall₂ R as bs) {a : α} (ha : a ∈ as) : ∃ b ∈ bs, R a b := by
  induction h with
  | nil => cases ha
  | cons hfirst _ ih =>
    rcases List.mem_cons.mp ha with rfl | ha
    · exact ⟨_, List.mem_cons_self, hfirst⟩
    · obtain ⟨b, hb, hab⟩ := ih ha
      exact ⟨b, List.mem_cons_of_mem _ hb, hab⟩

theorem Slot.Related.toList {α β : Type} {R : α → β → Prop} {slot : Slot α} {slot' : Slot β}
    (h : slot.Related R slot') : List.Forall₂ R slot.toList slot'.toList := by
  cases h with
  | absent => exact .nil
  | one h => exact .cons h .nil
  | many h => exact h

theorem Node.Over.children {R : Node → Node → Prop} {old new : Node} (h : old.Over R new) :
    List.Forall₂ R old.children new.children :=
  List.rel_flatMap h.slots fun _ _ hslot => hslot.toList

namespace Node

/-- Where what is made of the children agrees, so does what is made of the places. -/
theorem map_of_related {α : Type} {f g : Node → α} {slots slots' : List (Slot Node)}
    (h : List.Forall₂ (Slot.Related fun old new => g new = f old) slots slots') :
    slots'.map (Slot.map g) = slots.map (Slot.map f) := by
  have hlist : ∀ {nodes nodes' : List Node}, List.Forall₂ (fun old new => g new = f old) nodes nodes' →
      nodes'.map g = nodes.map f := by
    intro nodes nodes' hnodes
    induction hnodes with
    | nil => rfl
    | cons hfirst _ ih => rw [List.map_cons, List.map_cons, hfirst, ih]
  induction h with
  | nil => rfl
  | cons hslot _ ih =>
    rw [List.map_cons, List.map_cons, ih]
    congr 1
    cases hslot with
    | absent => rfl
    | one h => exact congrArg Slot.one h
    | many h => exact congrArg Slot.many (hlist h)

theorem map_bare_of_related {f : Node → Node} {slots slots' : List (Slot Node)}
    (h : List.Forall₂ (Slot.Related fun old new => new.bare = (f old).bare) slots slots') :
    slots'.map (Slot.map bare) = (slots.map (Slot.map f)).map (Slot.map bare) := by
  rw [map_map_slots]
  exact map_of_related h

theorem bare_of_over_bare {old new : Node} (h : old.Over (fun a b => b.bare = a.bare) new) :
    new.bare = old.bare := by
  rw [bare_eq, bare_eq old, h.tag, h.value, h.qualifiers, map_of_related h.slots]

end Node

namespace Editor

variable {σ κ : Type}

/-- How an editor treats the trees whose nodes have the property `p`. The context of a node is what
`within` makes of the contexts around it, `inv` holds of the states in a context, states grow along
`le`, and `out` relates a node to what becomes of it, for good. -/
structure Law (editor : Editor σ) (p : Node → Prop) (within : κ → Node → κ) (inv : κ → σ → Prop)
    (le : σ → σ → Prop) (out : κ → σ → Node → Node → Prop) : Prop where
  fitsLayout : ∀ {node}, p node → node.fitsLayout = true
  le_refl : ∀ s, le s s
  le_trans : ∀ {a b c}, le a b → le b c → le a c
  out_mono : ∀ {k s s' node new}, le s s' → out k s node new → out k s' node new
  before : ∀ {k s node}, node.Every p → inv k s →
    ∃ s', editor.before node s = (.ok (), s') ∧ inv (within k node) s' ∧ le s s'
  editing : ∀ {k s s' node descend change}, node.Every p → descend s = (.ok change, s') →
    inv (within k node) s' → node.Over (out (within k node) s') (change.result node) →
    ∃ change' s'', editor.editing node descend s = (.ok (some change'), s'') ∧
      inv (within k node) s'' ∧ le s' s'' ∧ out k s'' node (change'.result node)
  after : ∀ {k s node}, node.Every p → inv (within k node) s →
    ∃ s', editor.after node s = (.ok (), s') ∧ inv k s' ∧ le s s'

namespace Law

variable {editor : Editor σ} {p : Node → Prop} {within : κ → Node → κ} {inv : κ → σ → Prop}
  {le : σ → σ → Prop} {out : κ → σ → Node → Node → Prop}

/-- The edit of the node succeeds from the state and keeps the law. -/
def Reaches (editor : Editor σ) (inv : κ → σ → Prop) (le : σ → σ → Prop)
    (out : κ → σ → Node → Node → Prop) (k : κ) (node : Node) : Prop :=
  ∀ s, inv k s → ∃ change s', editor.edit node s = (.ok (some change), s') ∧ inv k s' ∧ le s s' ∧
    out k s' node (change.result node)

theorem editList_run (law : Law editor p within inv le out) {k : κ} {nodes : List Node}
    (h : ∀ node ∈ nodes, Reaches editor inv le out k node) {s : σ} (hinv : inv k s) :
    ∃ edited changed s', editor.editList nodes s = (.ok (edited, changed), s') ∧ inv k s' ∧
      le s s' ∧ List.Forall₂ (out k s') nodes edited ∧ (changed = false → edited = nodes) := by
  induction nodes generalizing s with
  | nil => exact ⟨[], false, s, rfl, hinv, law.le_refl s, .nil, fun _ => rfl⟩
  | cons node nodes ih =>
    obtain ⟨hnode, hnodes⟩ := List.forall_mem_cons.mp h
    obtain ⟨change, s₁, hrun, hinv₁, hle₁, hout⟩ := hnode s hinv
    obtain ⟨others, changed, s₂, hruns, hinv₂, hle₂, houts, hsame⟩ := ih hnodes hinv₁
    have hrelated : List.Forall₂ (out k s₂) (node :: nodes) (change.result node :: others) :=
      .cons (law.out_mono hle₂ hout) houts
    rw [editList, run_bind hrun, run_bind hruns]
    cases change with
    | unchanged =>
      exact ⟨_, _, s₂, rfl, hinv₂, law.le_trans hle₁ hle₂, hrelated,
        fun hchanged => by rw [hsame hchanged]⟩
    | became other => exact ⟨_, _, s₂, rfl, hinv₂, law.le_trans hle₁ hle₂, hrelated, nofun⟩

theorem editSlot_run (law : Law editor p within inv le out) {k : κ} {slot : Slot Node}
    (h : ∀ node ∈ slot.toList, Reaches editor inv le out k node) (parent : Node) (i : Nat) {s : σ}
    (hinv : inv k s) :
    ∃ edited changed s', editor.editSlot parent i slot s = (.ok (edited, changed), s') ∧
      inv k s' ∧ le s s' ∧ slot.Related (out k s') edited ∧ (changed = false → edited = slot) := by
  cases slot with
  | absent => exact ⟨.absent, false, s, rfl, hinv, law.le_refl s, .absent, fun _ => rfl⟩
  | one child =>
    obtain ⟨change, s', hrun, hinv', hle, hout⟩ := h child (List.mem_singleton.mpr rfl) s hinv
    rw [editSlot, run_bind hrun]
    cases change with
    | unchanged => exact ⟨_, _, s', rfl, hinv', hle, .one hout, fun _ => rfl⟩
    | became other => exact ⟨_, _, s', rfl, hinv', hle, .one hout, nofun⟩
  | many children =>
    rw [Slot.toList] at h
    obtain ⟨edited, changed, s', hrun, hinv', hle, hout, hsame⟩ := law.editList_run h hinv
    rw [editSlot, run_bind hrun]
    exact ⟨_, _, s', rfl, hinv', hle, .many hout, fun hchanged => by rw [hsame hchanged]⟩

theorem editSlots_run (law : Law editor p within inv le out) {k : κ} {slots : List (Slot Node)}
    (h : ∀ node ∈ slots.flatMap Slot.toList, Reaches editor inv le out k node) (parent : Node)
    (i : Nat) {s : σ} (hinv : inv k s) :
    ∃ edited changed s', editor.editSlots parent i slots s = (.ok (edited, changed), s') ∧
      inv k s' ∧ le s s' ∧ List.Forall₂ (Slot.Related (out k s')) slots edited ∧
      (changed = false → edited = slots) := by
  induction slots generalizing i s with
  | nil => exact ⟨[], false, s, rfl, hinv, law.le_refl s, .nil, fun _ => rfl⟩
  | cons slot slots ih =>
    rw [List.flatMap_cons, List.forall_mem_append] at h
    obtain ⟨first, changed₁, s₁, hrun₁, hinv₁, hle₁, hout₁, hsame₁⟩ :=
      law.editSlot_run h.1 parent i hinv
    obtain ⟨others, changed₂, s₂, hrun₂, hinv₂, hle₂, hout₂, hsame₂⟩ := ih h.2 (i + 1) hinv₁
    have hfirst : slot.Related (out k s₂) first := hout₁.imp fun _ _ => law.out_mono hle₂
    rw [editSlots, run_bind hrun₁]
    dsimp only
    rw [run_bind hrun₂]
    refine ⟨_, _, s₂, rfl, hinv₂, law.le_trans hle₁ hle₂, .cons hfirst hout₂, fun hchanged => ?_⟩
    rw [Bool.or_eq_false_iff] at hchanged
    rw [hsame₁ hchanged.1, hsame₂ hchanged.2]

theorem editChildren_run (law : Law editor p within inv le out) {k : κ} {node : Node}
    (hfits : node.fitsLayout = true)
    (h : ∀ child ∈ node.children, Reaches editor inv le out k child) {s : σ} (hinv : inv k s) :
    ∃ change s', editor.editChildren node s = (.ok change, s') ∧ inv k s' ∧ le s s' ∧
      node.Over (out k s') (change.result node) := by
  obtain ⟨edited, changed, s', hrun, hinv', hle, hout, hsame⟩ :=
    law.editSlots_run h node 0 hinv
  rw [editChildren, run_bind (Walk.checkLayout_run hfits s), run_bind hrun]
  cases changed with
  | true => exact ⟨_, s', rfl, hinv', hle, rfl, rfl, rfl, hout⟩
  | false => exact ⟨_, s', rfl, hinv', hle, rfl, rfl, rfl, hsame rfl ▸ hout⟩

/-- An editor that keeps a law at every node succeeds on every tree and keeps the law. -/
theorem edit (law : Law editor p within inv le out) {node : Node} (hvalid : node.Every p) (k : κ) :
    Reaches editor inv le out k node := by
  induction node using Node.induct generalizing k with
  | h node ih =>
    intro s hinv
    obtain ⟨s₁, hbefore, hinv₁, hle₁⟩ := law.before hvalid hinv
    obtain ⟨change, s₂, hdescend, hinv₂, hle₂, hover⟩ :=
      law.editChildren_run (law.fitsLayout hvalid.root)
        (fun child hchild => ih child hchild (hvalid.child hchild) (within k node)) hinv₁
    obtain ⟨change', s₃, hediting, hinv₃, hle₃, hout⟩ := law.editing hvalid hdescend hinv₂ hover
    obtain ⟨s₄, hafter, hinv₄, hle₄⟩ := law.after hvalid hinv₃
    refine ⟨change', s₄, ?_, hinv₄, ?_, law.out_mono hle₄ hout⟩
    · rw [edit_eq, run_bind hbefore, Walk.ensuring_run hediting hafter]
    · exact law.le_trans hle₁ (law.le_trans hle₂ (law.le_trans hle₃ hle₄))

theorem apply (law : Law editor p within inv le out) {root : Node} (hvalid : root.Every p) {k : κ}
    {s : σ} (hinv : inv k s) :
    ∃ change s', (editor.apply root).runFrom s = .ok (change, s') ∧ inv k s' ∧ le s s' ∧
      out k s' root (change.result root) := by
  obtain ⟨change, s', hrun, hinv', hle, hout⟩ := law.edit hvalid k s hinv
  have happly : editor.apply root s = (.ok change, s') := by
    rw [Editor.apply, run_bind hrun]
    rfl
  exact ⟨change, s', by simp only [Walk.runFrom, happly], hinv', hle, hout⟩

/-- The law of an editor that does nothing around a node and whose results do not depend on the
state. -/
theorem ofLocal {R : Node → Node → Prop} (hfits : ∀ {node}, p node → node.fitsLayout = true)
    (hbefore : ∀ node, editor.before node = pure ()) (hafter : ∀ node, editor.after node = pure ())
    (hediting : ∀ {node descend s s' change}, node.Every p → descend s = (.ok change, s') →
      node.Over R (change.result node) →
      ∃ change' s'', editor.editing node descend s = (.ok (some change'), s'') ∧
        R node (change'.result node)) :
    editor.Law p (fun (_ : Unit) _ => ()) (fun _ _ => True) (fun _ _ => True) (fun _ _ => R) where
  fitsLayout := hfits
  le_refl _ := trivial
  le_trans _ _ := trivial
  out_mono _ h := h
  before {_ s node} _ _ := ⟨s, by rw [hbefore node]; rfl, trivial, trivial⟩
  editing hvalid hdescend _ hover := by
    obtain ⟨change', s'', hrun, hout⟩ := hediting hvalid hdescend hover
    exact ⟨change', s'', hrun, trivial, trivial, hout⟩
  after {_ s node} _ _ := ⟨s, by rw [hafter node]; rfl, trivial, trivial⟩

end Law

/-! ### Editors that do nothing -/

/-- The edit leaves the node and the state as they are. -/
def Idle (editor : Editor σ) (node : Node) : Prop :=
  ∀ s, editor.edit node s = (.ok (some .unchanged), s)

variable {editor : Editor σ}

theorem editList_idle {nodes : List Node} (h : ∀ node ∈ nodes, editor.Idle node) (s : σ) :
    editor.editList nodes s = (.ok (nodes, false), s) := by
  induction nodes generalizing s with
  | nil => rfl
  | cons node nodes ih =>
    obtain ⟨hnode, hnodes⟩ := List.forall_mem_cons.mp h
    rw [editList, run_bind (hnode s), run_bind (ih hnodes s)]
    rfl

theorem editSlot_idle {slot : Slot Node} (h : ∀ node ∈ slot.toList, editor.Idle node)
    (parent : Node) (i : Nat) (s : σ) :
    editor.editSlot parent i slot s = (.ok (slot, false), s) := by
  cases slot with
  | absent => rfl
  | one child =>
    rw [editSlot, run_bind (h child (List.mem_singleton.mpr rfl) s)]
    rfl
  | many children =>
    rw [Slot.toList] at h
    rw [editSlot, run_bind (editList_idle h s)]
    rfl

theorem editSlots_idle {slots : List (Slot Node)}
    (h : ∀ node ∈ slots.flatMap Slot.toList, editor.Idle node) (parent : Node) (i : Nat) (s : σ) :
    editor.editSlots parent i slots s = (.ok (slots, false), s) := by
  induction slots generalizing i with
  | nil => rfl
  | cons slot slots ih =>
    rw [List.flatMap_cons, List.forall_mem_append] at h
    rw [editSlots, run_bind (editSlot_idle h.1 parent i s)]
    dsimp only
    rw [run_bind (ih h.2 (i + 1))]
    rfl

/-- Where nothing happens to the children, nothing happens below the node. -/
theorem editChildren_idle {node : Node} (hfits : node.fitsLayout = true)
    (h : ∀ child ∈ node.children, editor.Idle child) (s : σ) :
    editor.editChildren node s = (.ok .unchanged, s) := by
  rw [editChildren, run_bind (Walk.checkLayout_run hfits s), run_bind (editSlots_idle h node 0 s)]
  rfl

/-- An editor that does nothing at a node once nothing happened below it does nothing at all. -/
theorem idle_of_local {p : Node → Prop} (hfits : ∀ {node}, p node → node.fitsLayout = true)
    (hbefore : ∀ node, editor.before node = pure ()) (hafter : ∀ node, editor.after node = pure ())
    (hediting : ∀ {node descend s}, p node → descend s = (.ok .unchanged, s) →
      editor.editing node descend s = (.ok (some .unchanged), s))
    {node : Node} (h : node.Every p) : editor.Idle node := by
  induction node using Node.induct with
  | h node ih =>
    intro s
    have hdescend := editChildren_idle (hfits h.root)
      (fun child hchild => ih child hchild (h.child hchild)) s
    rw [edit_eq, hbefore, hafter, pure_bind]
    exact Walk.ensuring_run (hediting h.root hdescend) rfl

theorem Idle.apply {root : Node} (h : editor.Idle root) (s : σ) :
    (editor.apply root).runFrom s = .ok (.unchanged, s) := by
  have happly : editor.apply root s = (.ok .unchanged, s) := by
    rw [Editor.apply, run_bind (h s)]
    rfl
  simp only [Walk.runFrom, happly]

end Editor

end GlslShrink
