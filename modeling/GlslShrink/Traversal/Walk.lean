import GlslShrink.Tree.Node

/-!
The effects of a traversal: it threads a state and can fail. A failure keeps the state reached so
far, so that clean-up after a failing subtree still sees it.
-/

set_option autoImplicit false

namespace GlslShrink

/-- Why a traversal fails. The node is named by its category and its number. -/
inductive Fault where
  /-- The places of a node do not match the layout of its category. -/
  | misshapen (tag : Tag) (id : Option Nat)
  /-- The child in a place that must not be empty was deleted. -/
  | deletedChild (tag : Tag) (id : Option Nat) (slot : Nat)
  | deletedRoot (tag : Tag) (id : Option Nat)
  deriving DecidableEq, Repr

namespace Fault

/-- How a message names a node. -/
def describe (tag : Tag) (id : Option Nat) : String :=
  match id with
  | some n => "node" ++ toString n ++ " (" ++ tag.name ++ ")"
  | none => "a new node (" ++ tag.name ++ ")"

def message : Fault → String
  | misshapen tag id => describe tag id ++ " does not match the slot layout of its tag"
  | deletedChild tag id slot =>
    "cannot delete required child in slot " ++ toString slot ++ " of " ++ describe tag id
  | deletedRoot tag id => "transform deleted the root " ++ describe tag id

end Fault

abbrev Walk (σ : Type) : Type → Type :=
  ExceptT Fault (StateM σ)

namespace Walk

variable {σ α : Type}

/-- The result of `body`, and its failure before that of `after`, which runs in any case. -/
def ensuring (body : Walk σ α) (after : Walk σ Unit) : Walk σ α := fun state =>
  match body state with
  | (.error fault, state') => (.error fault, (after state').2)
  | (.ok a, state') =>
    match after state' with
    | (.error fault, state'') => (.error fault, state'')
    | (.ok (), state'') => (.ok a, state'')

/-- Fails unless the node's own places match its layout. -/
def checkLayout (node : Node) : Walk σ Unit :=
  if node.fitsLayout then pure () else throw (.misshapen node.tag node.mark.id)

/-- Runs a traversal from a state, for its result and the state it leaves. -/
def runFrom (walk : Walk σ α) (state : σ) : Except Fault (α × σ) :=
  match walk state with
  | (.ok a, state') => .ok (a, state')
  | (.error fault, _) => .error fault

end Walk

end GlslShrink
