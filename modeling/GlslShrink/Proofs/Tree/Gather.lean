import GlslShrink.Proofs.Tree.Shape

/-!
Gathering things on the way through a tree. What a traversal meets is listed in order: at every node
something ahead of its children and something behind them. A context is carried inward, such as the
function or the number of structures around a node.
-/

set_option autoImplicit false

namespace GlslShrink.Node

variable {κ α : Type}

/-- What is met on the way through a tree: `ahead` of the children of a node and `behind` them, in a
context that `into` carries from a node to its children. -/
def gather (into : κ → Node → κ) (ahead behind : κ → Node → List α) : Node → κ → List α :=
  fold fun node slots context =>
    ahead context node ++
      (slots.flatMap Slot.toList).flatMap (fun below => below (into context node)) ++
      behind context node

variable {into : κ → Node → κ} {ahead behind : κ → Node → List α}

theorem gather_eq (node : Node) (context : κ) :
    node.gather into ahead behind context =
      ahead context node ++
        node.children.flatMap (fun child => child.gather into ahead behind (into context node)) ++
        behind context node := by
  rw [gather, fold_eq, flatMap_toList_map, children, List.flatMap_map]

/-- Where marks do not matter at a node, they do not matter for the tree. -/
theorem gather_bare (hinto : ∀ context node, into context (bare node) = into context node)
    (hahead : ∀ context node, ahead context (bare node) = ahead context node)
    (hbehind : ∀ context node, behind context (bare node) = behind context node) (node : Node)
    (context : κ) :
    node.bare.gather into ahead behind context = node.gather into ahead behind context := by
  induction node using induct generalizing context with
  | h node ih =>
    rw [gather_eq, gather_eq, hahead, hbehind, hinto, children_bare, List.flatMap_map]
    simp only [List.flatMap_def]
    rw [List.map_congr_left fun child hchild => ih child hchild (into context node)]

end GlslShrink.Node
