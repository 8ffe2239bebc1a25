import GlslShrink.Proofs.Traversal.Laws

/-!
The states along a traversal. An editor that deletes nothing goes through the children of a node in
order, so the state it leaves is a fold (`Editor.leaves_of_local`). Where the hook after a node takes
back what the hook before it did to a part of the state, a traversal restores that part, even if it
fails half-way (`Visitor.Balanced.visit`, `Editor.Balanced.edit`). So a hook after a node only ever
sees what its counterpart put there, and a check that it does changes nothing
(`Visitor.Balanced.visit_checked`, `Editor.Balanced.edit_checked`).
-/

set_option autoImplicit false

namespace GlslShrink

/-! ### The state that an editor leaves -/

namespace Editor

variable {σ : Type} {editor : Editor σ} {step : Node → σ → σ}

/-- An edit of the node succeeds, does not delete it, and leaves the state that `step` gives. -/
def Leaves (editor : Editor σ) (step : Node → σ → σ) (node : Node) : Prop :=
  ∀ s, ∃ change, editor.edit node s = (.ok (some change), step node s)

theorem editList_leaves {nodes : List Node} (h : ∀ node ∈ nodes, Leaves editor step node) (s : σ) :
    ∃ result, editor.editList nodes s =
      (.ok result, nodes.foldl (fun s node => step node s) s) := by
  induction nodes generalizing s with
  | nil => exact ⟨_, rfl⟩
  | cons node nodes ih =>
    obtain ⟨hnode, hnodes⟩ := List.forall_mem_cons.mp h
    obtain ⟨change, hrun⟩ := hnode s
    obtain ⟨others, hruns⟩ := ih hnodes (step node s)
    rw [editList, run_bind hrun, run_bind hruns, List.foldl_cons]
    cases change <;> exact ⟨_, rfl⟩

theorem editSlot_leaves {slot : Slot Node} (h : ∀ node ∈ slot.toList, Leaves editor step node)
    (parent : Node) (i : Nat) (s : σ) :
    ∃ result, editor.editSlot parent i slot s =
      (.ok result, slot.toList.foldl (fun s node => step node s) s) := by
  cases slot with
  | absent => exact ⟨_, rfl⟩
  | one child =>
    obtain ⟨change, hrun⟩ := h child (List.mem_singleton.mpr rfl) s
    rw [editSlot, run_bind hrun]
    cases change <;> exact ⟨_, rfl⟩
  | many children =>
    rw [Slot.toList] at h ⊢
    obtain ⟨result, hrun⟩ := editList_leaves h s
    rw [editSlot, run_bind hrun]
    exact ⟨_, rfl⟩

theorem editSlots_leaves {slots : List (Slot Node)}
    (h : ∀ node ∈ slots.flatMap Slot.toList, Leaves editor step node) (parent : Node) (i : Nat)
    (s : σ) :
    ∃ result, editor.editSlots parent i slots s =
      (.ok result, (slots.flatMap Slot.toList).foldl (fun s node => step node s) s) := by
  induction slots generalizing i s with
  | nil => exact ⟨_, rfl⟩
  | cons slot slots ih =>
    rw [List.flatMap_cons, List.forall_mem_append] at h
    obtain ⟨first, hfirst⟩ := editSlot_leaves h.1 parent i s
    obtain ⟨others, hothers⟩ := ih h.2 (i + 1) _
    rw [editSlots, run_bind hfirst]
    dsimp only
    rw [run_bind hothers, List.flatMap_cons, List.foldl_append]
    exact ⟨_, rfl⟩

theorem editChildren_leaves {node : Node} (hfits : node.fitsLayout = true)
    (h : ∀ child ∈ node.children, Leaves editor step child) (s : σ) :
    ∃ change, editor.editChildren node s =
      (.ok change, node.children.foldl (fun s child => step child s) s) := by
  obtain ⟨result, hrun⟩ := editSlots_leaves h node 0 s
  rw [editChildren, run_bind (Walk.checkLayout_run hfits s), run_bind hrun]
  exact ⟨_, rfl⟩

/-- If at every node the state is the right one once it is so for the children, it is so for the
whole tree. -/
theorem leaves_of_local
    (hlocal : ∀ node s, ∃ s₁, editor.before node s = (.ok (), s₁) ∧
      ∀ {descend change}, descend s₁ =
          (.ok change, node.children.foldl (fun s child => step child s) s₁) →
        ∃ change' s₂, editor.editing node descend s₁ = (.ok (some change'), s₂) ∧
          editor.after node s₂ = (.ok (), step node s))
    {node : Node} (hfits : node.Every (fun node => node.fitsLayout = true)) :
    Leaves editor step node := by
  induction node using Node.induct with
  | h node ih =>
    intro s
    obtain ⟨s₁, hbefore, hnode⟩ := hlocal node s
    obtain ⟨change, hdescend⟩ := editChildren_leaves hfits.root
      (fun child hchild => ih child hchild (hfits.child hchild)) s₁
    obtain ⟨change', s₂, hediting, hafter⟩ := hnode hdescend
    exact ⟨change', by rw [edit_eq, run_bind hbefore, Walk.ensuring_run hediting hafter]⟩

theorem Leaves.apply {root : Node} (h : Leaves editor step root) (s : σ) :
    ∃ change, (editor.apply root).runFrom s = .ok (change, step root s) := by
  obtain ⟨change, hrun⟩ := h s
  have happly : editor.apply root s = (.ok change, step root s) := by
    rw [Editor.apply, run_bind hrun]
    rfl
  exact ⟨change, by simp only [Walk.runFrom, happly]⟩

end Editor

/-! ### Parts of the state that a traversal restores -/

namespace Walk

variable {σ κ α β : Type} {view : σ → κ}

/-- Whether the walk succeeds or fails, it leaves this part of the state as it was. -/
def Restores (view : σ → κ) (walk : Walk σ α) : Prop :=
  ∀ s, view (walk s).2 = view s

theorem restores_pure (a : α) : Restores view (pure a : Walk σ α) :=
  fun _ => rfl

theorem restores_throw (fault : Fault) : Restores view (throw fault : Walk σ α) :=
  fun _ => rfl

theorem restores_bind {x : Walk σ α} {f : α → Walk σ β} (hx : Restores view x)
    (hf : ∀ a, Restores view (f a)) : Restores view (x >>= f) := by
  intro s
  have hfirst := hx s
  match hrun : x s with
  | (.ok a, s') =>
    rw [hrun] at hfirst
    rw [run_bind hrun, hf a s', hfirst]
  | (.error fault, s') =>
    rw [hrun] at hfirst
    rw [run_bind_error hrun, hfirst]

theorem restores_checkLayout (node : Node) : Restores view (checkLayout node : Walk σ Unit) := by
  unfold checkLayout
  split
  · exact restores_pure ()
  · exact restores_throw _

/-- The walk that fails where the state does not pass the check. -/
def guarded (passes : σ → Bool) (fault : Fault) (walk : Walk σ α) : Walk σ α := do
  if passes (← get) then walk else throw fault

theorem guarded_run {passes : σ → Bool} {s : σ} (h : passes s = true) (fault : Fault)
    (walk : Walk σ α) : guarded passes fault walk s = walk s := by
  have hget : (get : Walk σ σ) s = (.ok s, s) := rfl
  rw [guarded, run_bind hget, if_pos h]

section Around

variable {before : Walk σ Unit} {body : Walk σ α} {after : Walk σ Unit} {s s₁ : σ} {inner : κ}

theorem view_around (hbefore : before s = (.ok (), s₁)) (hinner : view s₁ = inner)
    (hbody : Restores view body) (hafter : ∀ s', view s' = inner → view (after s').2 = view s) :
    view ((before >>= fun _ => ensuring body after) s).2 = view s := by
  have hkept := hbody s₁
  rw [run_bind hbefore, ensuring]
  rcases hrun : body s₁ with ⟨_ | a, s₂⟩
  · rw [hrun] at hkept
    exact hafter s₂ (hkept.trans hinner)
  · rw [hrun] at hkept
    have hlast := hafter s₂ (hkept.trans hinner)
    dsimp only
    rcases hrun' : after s₂ with ⟨_ | _, s₃⟩ <;> rw [hrun'] at hlast <;> exact hlast

/-- What runs after a body sees the state as the body left it, so only there it matters. -/
theorem around_congr {after' : Walk σ Unit} (hbefore : before s = (.ok (), s₁))
    (hinner : view s₁ = inner) (hbody : Restores view body)
    (hafter : ∀ s', view s' = inner → after' s' = after s') :
    (before >>= fun _ => ensuring body after') s = (before >>= fun _ => ensuring body after) s := by
  have hkept := hbody s₁
  rw [run_bind hbefore, run_bind hbefore, ensuring, ensuring]
  rcases hrun : body s₁ with ⟨outcome, s₂⟩
  rw [hrun] at hkept
  cases outcome <;> simp only [hafter s₂ (hkept.trans hinner)]

end Around

end Walk

namespace Visitor

open Walk

variable {σ κ : Type} {visitor : Visitor σ} {view : σ → κ} {into : Node → κ → κ}

/-- What the visitor does after a node takes back what it did before the node to this part of the
state, and it does nothing else to it. -/
structure Balanced (visitor : Visitor σ) (view : σ → κ) (into : Node → κ → κ) : Prop where
  before : ∀ node s, ∃ s', visitor.before node s = (.ok (), s') ∧ view s' = into node (view s)
  visiting : ∀ node {descend}, Restores view descend → Restores view (visitor.visiting node descend)
  after : ∀ node s k, view s = into node k → view (visitor.after node s).2 = k

theorem restores_visitList {nodes : List Node} (h : ∀ node ∈ nodes, Restores view (visitor.visit node)) :
    Restores view (visitor.visitList nodes) := by
  induction nodes with
  | nil => exact restores_pure ()
  | cons node nodes ih =>
    obtain ⟨hnode, hnodes⟩ := List.forall_mem_cons.mp h
    rw [visitList]
    exact restores_bind hnode fun _ => ih hnodes

theorem restores_visitSlots {slots : List (Slot Node)}
    (h : ∀ node ∈ slots.flatMap Slot.toList, Restores view (visitor.visit node)) :
    Restores view (visitor.visitSlots slots) := by
  induction slots with
  | nil => exact restores_pure ()
  | cons slot slots ih =>
    rw [List.flatMap_cons, List.forall_mem_append] at h
    rw [visitSlots]
    refine restores_bind ?_ fun _ => ih h.2
    cases slot with
    | absent => exact restores_pure ()
    | one child => exact h.1 child (List.mem_singleton.mpr rfl)
    | many children => exact restores_visitList h.1

theorem restores_visitChildren {node : Node}
    (h : ∀ child ∈ node.children, Restores view (visitor.visit child)) :
    Restores view (visitor.visitChildren node) :=
  restores_bind (restores_checkLayout node) fun _ => restores_visitSlots h

/-- A visit restores what the visitor balances. -/
theorem Balanced.visit (h : visitor.Balanced view into) (node : Node) :
    Restores view (visitor.visit node) := by
  induction node using Node.induct with
  | h node ih =>
    intro s
    obtain ⟨s₁, hbefore, hinner⟩ := h.before node s
    rw [visit_eq]
    exact view_around hbefore hinner (h.visiting node (restores_visitChildren ih))
      fun s' hs' => h.after node s' _ hs'

/-- The visitor that fails after a node if the state does not pass the check there. -/
def checked (visitor : Visitor σ) (passes : Node → σ → Bool) : Visitor σ :=
  { visitor with
    after := fun node =>
      guarded (passes node) (.misshapen node.tag node.mark.id) (visitor.after node) }

theorem visitList_congr {other : Visitor σ} {nodes : List Node}
    (h : ∀ node ∈ nodes, visitor.visit node = other.visit node) :
    visitor.visitList nodes = other.visitList nodes := by
  induction nodes with
  | nil => rfl
  | cons node nodes ih =>
    obtain ⟨hnode, hnodes⟩ := List.forall_mem_cons.mp h
    rw [visitList, visitList, hnode, ih hnodes]

theorem visitSlots_congr {other : Visitor σ} {slots : List (Slot Node)}
    (h : ∀ node ∈ slots.flatMap Slot.toList, visitor.visit node = other.visit node) :
    visitor.visitSlots slots = other.visitSlots slots := by
  induction slots with
  | nil => rfl
  | cons slot slots ih =>
    rw [List.flatMap_cons, List.forall_mem_append] at h
    rw [visitSlots, visitSlots, ih h.2]
    cases slot with
    | absent => rfl
    | one child => rw [visitSlot, visitSlot, h.1 child (List.mem_singleton.mpr rfl)]
    | many children =>
      rw [Slot.toList] at h
      rw [visitSlot, visitSlot, visitList_congr h.1]

/-- A check that holds of everything the visitor puts there never fails. -/
theorem Balanced.visit_checked (h : visitor.Balanced view into) {passes : Node → σ → Bool}
    (hpasses : ∀ node s k, view s = into node k → passes node s = true) (node : Node) :
    (visitor.checked passes).visit node = visitor.visit node := by
  induction node using Node.induct with
  | h node ih =>
    have hchildren : (visitor.checked passes).visitChildren node = visitor.visitChildren node := by
      rw [visitChildren, visitChildren, visitSlots_congr ih]
    funext s
    obtain ⟨s₁, hbefore, hinner⟩ := h.before node s
    rw [visit_eq, visit_eq, hchildren]
    exact around_congr hbefore hinner
      (h.visiting node (restores_visitChildren fun child _ => h.visit child))
      fun s' hs' => guarded_run (hpasses node s' _ hs') _ _

end Visitor

namespace Editor

open Walk

variable {σ κ : Type} {editor : Editor σ} {view : σ → κ} {into : Node → κ → κ}

/-- What the editor does after a node takes back what it did before the node to this part of the
state, and it does nothing else to it. -/
structure Balanced (editor : Editor σ) (view : σ → κ) (into : Node → κ → κ) : Prop where
  before : ∀ node s, ∃ s', editor.before node s = (.ok (), s') ∧ view s' = into node (view s)
  editing : ∀ node {descend}, Restores view descend → Restores view (editor.editing node descend)
  after : ∀ node s k, view s = into node k → view (editor.after node s).2 = k

theorem restores_editList {nodes : List Node} (h : ∀ node ∈ nodes, Restores view (editor.edit node)) :
    Restores view (editor.editList nodes) := by
  induction nodes with
  | nil => exact restores_pure _
  | cons node nodes ih =>
    obtain ⟨hnode, hnodes⟩ := List.forall_mem_cons.mp h
    rw [editList]
    refine restores_bind hnode fun change => restores_bind (ih hnodes) fun _ => ?_
    rcases change with _ | (_ | _) <;> exact restores_pure _

theorem restores_editSlot {slot : Slot Node}
    (h : ∀ node ∈ slot.toList, Restores view (editor.edit node)) (parent : Node) (i : Nat) :
    Restores view (editor.editSlot parent i slot) := by
  cases slot with
  | absent => exact restores_pure _
  | one child =>
    rw [editSlot]
    refine restores_bind (h child (List.mem_singleton.mpr rfl)) fun change => ?_
    rcases change with _ | (_ | _)
    · dsimp only
      split
      · exact restores_pure _
      · exact restores_throw _
    · exact restores_pure _
    · exact restores_pure _
  | many children =>
    rw [editSlot]
    exact restores_bind (restores_editList h) fun _ => restores_pure _

theorem restores_editSlots {slots : List (Slot Node)}
    (h : ∀ node ∈ slots.flatMap Slot.toList, Restores view (editor.edit node)) (parent : Node)
    (i : Nat) : Restores view (editor.editSlots parent i slots) := by
  induction slots generalizing i with
  | nil => exact restores_pure _
  | cons slot slots ih =>
    rw [List.flatMap_cons, List.forall_mem_append] at h
    rw [editSlots]
    exact restores_bind (restores_editSlot h.1 parent i) fun _ =>
      restores_bind (ih h.2 (i + 1)) fun _ => restores_pure _

theorem restores_editChildren {node : Node}
    (h : ∀ child ∈ node.children, Restores view (editor.edit child)) :
    Restores view (editor.editChildren node) :=
  restores_bind (restores_checkLayout node) fun _ =>
    restores_bind (restores_editSlots h node 0) fun _ => restores_pure _

/-- An edit restores what the editor balances. -/
theorem Balanced.edit (h : editor.Balanced view into) (node : Node) :
    Restores view (editor.edit node) := by
  induction node using Node.induct with
  | h node ih =>
    intro s
    obtain ⟨s₁, hbefore, hinner⟩ := h.before node s
    rw [edit_eq]
    exact view_around hbefore hinner (h.editing node (restores_editChildren ih))
      fun s' hs' => h.after node s' _ hs'

/-- The editor that fails after a node if the state does not pass the check there. -/
def checked (editor : Editor σ) (passes : Node → σ → Bool) : Editor σ :=
  { editor with
    after := fun node =>
      guarded (passes node) (.misshapen node.tag node.mark.id) (editor.after node) }

theorem editList_congr {other : Editor σ} {nodes : List Node}
    (h : ∀ node ∈ nodes, editor.edit node = other.edit node) :
    editor.editList nodes = other.editList nodes := by
  induction nodes with
  | nil => rfl
  | cons node nodes ih =>
    obtain ⟨hnode, hnodes⟩ := List.forall_mem_cons.mp h
    rw [editList, editList, hnode, ih hnodes]

theorem editSlots_congr {other : Editor σ} {slots : List (Slot Node)}
    (h : ∀ node ∈ slots.flatMap Slot.toList, editor.edit node = other.edit node) (parent : Node)
    (i : Nat) : editor.editSlots parent i slots = other.editSlots parent i slots := by
  induction slots generalizing i with
  | nil => rfl
  | cons slot slots ih =>
    rw [List.flatMap_cons, List.forall_mem_append] at h
    rw [editSlots, editSlots, ih h.2]
    cases slot with
    | absent => rfl
    | one child => rw [editSlot, editSlot, h.1 child (List.mem_singleton.mpr rfl)]
    | many children =>
      rw [Slot.toList] at h
      rw [editSlot, editSlot, editList_congr h.1]

/-- A check that holds of everything the editor puts there never fails. -/
theorem Balanced.edit_checked (h : editor.Balanced view into) {passes : Node → σ → Bool}
    (hpasses : ∀ node s k, view s = into node k → passes node s = true) (node : Node) :
    (editor.checked passes).edit node = editor.edit node := by
  induction node using Node.induct with
  | h node ih =>
    have hchildren : (editor.checked passes).editChildren node = editor.editChildren node := by
      rw [editChildren, editChildren, editSlots_congr ih]
    funext s
    obtain ⟨s₁, hbefore, hinner⟩ := h.before node s
    rw [edit_eq, edit_eq, hchildren]
    exact around_congr hbefore hinner
      (h.editing node (restores_editChildren fun child _ => h.edit child))
      fun s' hs' => guarded_run (hpasses node s' _ hs') _ _

end Editor

end GlslShrink
