import GlslShrink.Proofs.Traversal.Course

/-!
What can happen at a node, one thing after the other. A handler looks at the state and changes it,
traverses the children any number of times and ends with a result or a fault (`Handler`). A table of
hooks and handlers is a visitor or an editor. If its hooks push an entry on a stack before some
nodes and pop it after them, and nothing else touches the stack, then every traversal leaves the
stack as it was, on every tree and whatever fails (`Table.Stacks.restores_visit`,
`Table.Stacks.restores_edit`).
-/

set_option autoImplicit false

namespace GlslShrink

open Walk

/-- What happens at a node. Traversing the children gives `α`, the result is a `β`. A fault of the
children ends the handler too, unless the traversal is only attempted. -/
inductive Handler (σ α β : Type) where
  | finish (result : β)
  | fail (fault : Fault)
  /-- Changes the state and goes on with what the state was before. -/
  | update (change : σ → σ) (next : σ → Handler σ α β)
  | descend (next : α → Handler σ α β)
  | attempt (next : Except Fault α → Handler σ α β)

namespace Handler

variable {σ κ α β : Type}

/-- Runs a handler, given the traversal of the children. -/
def run (children : Walk σ α) : Handler σ α β → Walk σ β
  | finish result => pure result
  | fail fault => throw fault
  | update change next => fun s => (next s).run children (change s)
  | descend next => do (next (← children)).run children
  | attempt next => fun s => (next (children s).1).run children (children s).2

/-- The handler by itself does not touch this part of the state. -/
def LeavesAlone (view : σ → κ) : Handler σ α β → Prop
  | finish _ | fail _ => True
  | update change next => (∀ s, view (change s) = view s) ∧ ∀ s, (next s).LeavesAlone view
  | descend next => ∀ a, (next a).LeavesAlone view
  | attempt next => ∀ outcome, (next outcome).LeavesAlone view

/-- The handler stops at the first fault of the children and passes it on. -/
def PassesOn : Handler σ α β → Prop
  | finish _ | fail _ => True
  | update _ next => ∀ s, (next s).PassesOn
  | descend next => ∀ a, (next a).PassesOn
  | attempt _ => False

/-- What can be seen of an untouched part of the state is untouched. -/
theorem LeavesAlone.comp {τ : Type} {view : σ → κ} {handler : Handler σ α β}
    (h : handler.LeavesAlone view) (f : κ → τ) : handler.LeavesAlone fun s => f (view s) := by
  induction handler with
  | finish result => trivial
  | fail fault => trivial
  | update change next ih => exact ⟨fun s => congrArg f (h.1 s), fun s => ih s (h.2 s)⟩
  | descend next ih => exact fun a => ih a (h a)
  | attempt next ih => exact fun outcome => ih outcome (h outcome)

theorem restores_run {view : σ → κ} {children : Walk σ α} (hchildren : Restores view children)
    {handler : Handler σ α β} (h : handler.LeavesAlone view) :
    Restores view (handler.run children) := by
  induction handler with
  | finish result => exact restores_pure result
  | fail fault => exact restores_throw fault
  | update change next ih =>
    intro s
    rw [run, ih s (h.2 s), h.1 s]
  | descend next ih => exact restores_bind hchildren fun a => ih a (h a)
  | attempt next ih =>
    intro s
    rw [run, ih _ (h _), hchildren s]

/-- A handler that starts with a walk of its own. -/
def perform {γ : Type} (walk : Walk σ γ) (next : γ → Handler σ α β) : Handler σ α β :=
  .update (fun s => (walk s).2) fun s =>
    match (walk s).1 with
    | .ok c => next c
    | .error fault => .fail fault

section Perform

variable {γ : Type} (walk : Walk σ γ) {next : γ → Handler σ α β}

theorem run_perform (next : γ → Handler σ α β) (children : Walk σ α) :
    (perform walk next).run children = walk >>= fun c => (next c).run children := by
  funext s
  rcases hrun : walk s with ⟨fault | c, s'⟩
  · rw [run_bind_error hrun, perform, run]
    dsimp only
    rw [hrun]
    rfl
  · rw [run_bind hrun, perform, run]
    dsimp only
    rw [hrun]

variable {walk}

theorem leavesAlone_perform {view : σ → κ} (hwalk : Restores view walk)
    (hnext : ∀ c, (next c).LeavesAlone view) : (perform walk next).LeavesAlone view := by
  refine ⟨hwalk, fun s => ?_⟩
  dsimp only
  cases (walk s).1 with
  | ok c => exact hnext c
  | error fault => trivial

theorem passesOn_perform (hnext : ∀ c, (next c).PassesOn) : (perform walk next).PassesOn := by
  intro s
  dsimp only
  cases (walk s).1 with
  | ok c => exact hnext c
  | error fault => trivial

end Perform

/-- The handler that only traverses the children. -/
def traverse : Handler σ α α :=
  .descend .finish

@[simp]
theorem run_traverse (children : Walk σ α) : traverse.run children = children :=
  bind_pure children

/-- The handler that changes the state at the nodes of one category, and traverses the children. -/
def noting (tag : Tag) (change : Node → σ → σ) (node : Node) : Handler σ α α :=
  if node.tag = tag then .perform (modify (change node)) fun _ => traverse else traverse

section Noting

variable (tag : Tag) (change : Node → σ → σ)

theorem run_noting (node : Node) (children : Walk σ α) :
    (noting tag change node).run children =
      if node.tag = tag then do modify (change node); children else children := by
  unfold noting
  split
  · rw [run_perform, run_traverse]
  · exact run_traverse children

variable {tag change}

theorem leavesAlone_noting {view : σ → κ} {node : Node}
    (h : node.tag = tag → ∀ s, view (change node s) = view s) :
    (noting tag change node : Handler σ α α).LeavesAlone view := by
  unfold noting
  split
  · exact leavesAlone_perform (h ‹_›) fun _ _ => trivial
  · exact fun _ => trivial

variable (tag change)

theorem passesOn_noting (node : Node) : (noting tag change node : Handler σ α α).PassesOn := by
  unfold noting
  split
  · exact passesOn_perform fun _ _ => trivial
  · exact fun _ => trivial

end Noting

end Handler

/-! ### Tables of hooks and handlers -/

structure Table (σ α β : Type) where
  before : Node → Walk σ Unit := fun _ => pure ()
  after : Node → Walk σ Unit := fun _ => pure ()
  handler : Node → Handler σ α β

namespace Table

variable {σ ε α β : Type}

/-- The visitor of a table whose handlers visit the children. -/
def visitor (table : Table σ Unit Unit) : Visitor σ where
  before := table.before
  after := table.after
  visiting node descend := (table.handler node).run descend

/-- The editor of a table whose handlers edit the children. -/
def editor (table : Table σ Change (Option Change)) : Editor σ where
  before := table.before
  after := table.after
  editing node descend := (table.handler node).run descend

/-- The hooks push an entry before the nodes of some categories and pop it after them, and leave the
stack alone at other nodes. Only hooks that push must not fail. Handlers touch the stack only by
traversing the children, and pass on the first fault. -/
structure Stacks (table : Table σ α β) (stack : σ → List ε) (pushes : Tag → Bool) : Prop where
  push : ∀ node s, pushes node.tag = true →
    ∃ entry s', table.before node s = (.ok (), s') ∧ stack s' = entry :: stack s
  pop : ∀ node s entry rest, pushes node.tag = true → stack s = entry :: rest →
    stack (table.after node s).2 = rest
  before : ∀ node, pushes node.tag = false → Restores stack (table.before node)
  after : ∀ node, pushes node.tag = false → Restores stack (table.after node)
  leavesAlone : ∀ node, (table.handler node).LeavesAlone stack
  passesOn : ∀ node, (table.handler node).PassesOn

end Table

theorem Walk.restores_ensuring {σ κ α : Type} {view : σ → κ} {body : Walk σ α}
    {after : Walk σ Unit} (hbody : Restores view body) (hafter : Restores view after) :
    Restores view (ensuring body after) := by
  intro s
  have hmiddle := hbody s
  rw [ensuring]
  rcases hrun : body s with ⟨_ | a, s₁⟩
  · rw [hrun] at hmiddle
    exact (hafter s₁).trans hmiddle
  · rw [hrun] at hmiddle
    have hlast := hafter s₁
    dsimp only
    rcases hrun' : after s₁ with ⟨_ | _, s₂⟩ <;> rw [hrun'] at hlast <;> exact hlast.trans hmiddle

namespace Table.Stacks

variable {σ ε α β : Type} {stack : σ → List ε} {pushes : Tag → Bool}

/-- What is pushed before a node is popped after it, whatever happens in between. -/
theorem restores_around {table : Table σ α β} (h : table.Stacks stack pushes) {children : Walk σ α}
    (hchildren : Restores stack children) (node : Node) :
    Restores stack (table.before node >>= fun _ =>
      ensuring ((table.handler node).run children) (table.after node)) := by
  have hhandler := Handler.restores_run hchildren (h.leavesAlone node)
  cases hpushes : pushes node.tag with
  | true =>
    intro s
    obtain ⟨entry, s₁, hbefore, hpushed⟩ := h.push node s hpushes
    exact view_around hbefore hpushed hhandler fun s' hs' => h.pop node s' entry _ hpushes hs'
  | false =>
    exact restores_bind (h.before node hpushes) fun _ =>
      restores_ensuring hhandler (h.after node hpushes)

/-- A visit leaves the stack as it was, whether it succeeds or fails. -/
theorem restores_visit {table : Table σ Unit Unit} (h : table.Stacks stack pushes) (node : Node) :
    Restores stack (table.visitor.visit node) := by
  induction node using Node.induct with
  | h node ih =>
    rw [Visitor.visit_eq]
    exact h.restores_around (Visitor.restores_visitChildren ih) node

/-- An edit leaves the stack as it was, whether it succeeds or fails. -/
theorem restores_edit {table : Table σ Change (Option Change)} (h : table.Stacks stack pushes)
    (node : Node) : Restores stack (table.editor.edit node) := by
  induction node using Node.induct with
  | h node ih =>
    rw [Editor.edit_eq]
    exact h.restores_around (Editor.restores_editChildren ih) node

end Table.Stacks

end GlslShrink
