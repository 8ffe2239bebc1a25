import GlslShrink.Proofs.Traversal.Sharing
import GlslShrink.Proofs.Tree.Skeleton

/-!
Editors that count what they take away. The state of such an editor is a number, and what it gains
in an edit is how many nodes of some categories are missing afterwards (`Editor.Accounts`). Where
the editor also puts such nodes in without counting them, those come on top
(`Editor.AccountsWith`). The states go from child to child, so the gains of the children add up to
that of an edit of all of them (`Editor.editChildren_accounts`). If every node accounts for what it
does by itself, the edit of a whole tree accounts for all that is missing
(`Editor.Law.accountsWith`, `Editor.Law.accounts`).
-/

set_option autoImplicit false

namespace GlslShrink

open Node

theorem EditedChild.children_settled (outcomes : List (Slot EditedChild)) :
    (outcomes.map settled).flatMap Slot.toList =
      (outcomes.flatMap Slot.toList).filterMap result? := by
  have hslot : ∀ outcome : Slot EditedChild,
      (settled outcome).toList = outcome.toList.filterMap result? := by
    intro outcome
    cases outcome with
    | absent => rfl
    | one outcome =>
      rw [settled, Slot.toList, List.filterMap_cons, List.filterMap_nil]
      cases outcome.result? <;> rfl
    | many outcomes => rfl
  rw [List.flatMap_map, List.filterMap_flatMap]
  exact List.flatMap_congr fun outcome _ => hslot outcome

namespace Editor

variable {editor : Editor Nat} {counted : Tag → Bool} {adds : Node → Bool}

/-- What the state gains in an edit of the node is what is missing afterwards of the nodes that
count. -/
def Accounts (editor : Editor Nat) (counted : Tag → Bool) (node : Node) : Prop :=
  ∀ s change s', editor.edit node s = (.ok change, s') →
    s' + tallyAll counted (EditedChild.result? (node, change)).toList = s + node.tally counted

/-- What the state gains in an edit of the node is what is missing afterwards of the nodes that
count, not counting one that was put in at each node that passes the test. -/
def AccountsWith (editor : Editor Nat) (counted : Tag → Bool) (adds : Node → Bool) (node : Node) :
    Prop :=
  ∀ s change s', editor.edit node s = (.ok change, s') →
    s' + tallyAll counted (EditedChild.result? (node, change)).toList =
      s + node.tally counted + node.preorder.countP adds

theorem accounts_iff {node : Node} :
    editor.Accounts counted node ↔ editor.AccountsWith counted (fun _ => false) node := by
  simp only [Accounts, AccountsWith, List.countP_false, Function.const_apply, Nat.add_zero]

theorem Edits.accounts {outcomes : List EditedChild} {s s' : Nat}
    (h : editor.Edits outcomes s s')
    (haccounts : ∀ outcome ∈ outcomes, editor.AccountsWith counted adds outcome.1) :
    s' + tallyAll counted (outcomes.filterMap EditedChild.result?) =
      s + tallyAll counted (outcomes.map Prod.fst) +
        ((outcomes.map Prod.fst).flatMap preorder).countP adds := by
  induction h with
  | nil s => rfl
  | @cons node change outcomes s s₁ s₂ hfirst _ ih =>
    obtain ⟨hnode, hrest⟩ := List.forall_mem_cons.mp haccounts
    have hsplit : tallyAll counted (((node, change) :: outcomes).filterMap EditedChild.result?) =
        tallyAll counted (EditedChild.result? (node, change)).toList +
          tallyAll counted (outcomes.filterMap EditedChild.result?) := by
      rw [← tallyAll_append, List.filterMap_cons]
      cases EditedChild.result? (node, change) <;> rfl
    have hgain : s₁ + tallyAll counted (EditedChild.result? (node, change)).toList =
        s + node.tally counted + node.preorder.countP adds := hnode s change s₁ hfirst
    have hgains := ih hrest
    rw [hsplit, List.map_cons, tallyAll_cons, List.flatMap_cons, List.countP_append]
    dsimp only
    omega

/-- What the edits of the children account for, an edit of all of them does. -/
theorem editChildren_accounts {node : Node}
    (haccounts : ∀ child ∈ node.children, editor.AccountsWith counted adds child) {s s' : Nat}
    {change : Change} (hrun : editor.editChildren node s = (.ok change, s')) :
    s' + (change.result node).tally counted =
      s + node.tally counted + (node.children.flatMap preorder).countP adds := by
  obtain ⟨outcomes, hshares⟩ := editChildren_shares hrun
  have hchildren : (outcomes.flatMap Slot.toList).map Prod.fst = node.children := by
    rw [children, ← hshares.children, List.flatMap_map, List.map_flatMap]
    simp only [Slot.toList_map]
  have hgain := hshares.edits.accounts fun outcome houtcome =>
    haccounts outcome.1 (hchildren ▸ List.mem_map_of_mem houtcome)
  rw [hchildren] at hgain
  cases change with
  | unchanged =>
    have hkept := hshares.unchanged.mp rfl
    have hresults : (outcomes.flatMap Slot.toList).filterMap EditedChild.result? = node.children := by
      rw [← hchildren, ← List.filterMap_eq_map]
      refine List.filterMap_congr fun outcome houtcome => ?_
      rw [EditedChild.result?, hkept outcome houtcome]
      rfl
    rw [hresults] at hgain
    rw [Change.result]
    omega
  | became new =>
    obtain ⟨-, htag, -, -, hslots⟩ := hshares.rebuilt new rfl
    have hresults : new.children =
        (outcomes.flatMap Slot.toList).filterMap EditedChild.result? := by
      rw [children, hslots, EditedChild.children_settled]
    rw [Change.result, tally_eq, tally_eq counted node, hresults, htag]
    omega

section Law

variable {p : Node → Prop} {R : Node → Node → Prop}
  (law : editor.Law p (fun (_ : Unit) _ => ()) (fun _ _ => True) (fun _ _ => True) (fun _ _ => R))
  (hbefore : ∀ node, editor.before node = pure ()) (hafter : ∀ node, editor.after node = pure ())

include law hbefore hafter

/-- If every node accounts for what it does once its children have been edited, so does the whole
tree. -/
theorem Law.accountsWith
    (hediting : ∀ {node descend s s' change}, node.Every p → descend s = (.ok change, s') →
      node.Over R (change.result node) →
      ∃ change' s'', editor.editing node descend s = (.ok (some change'), s'') ∧
        s'' + (change'.result node).tally counted =
          s' + (change.result node).tally counted + (adds node).toNat)
    {node : Node} (hnode : node.Every p) : editor.AccountsWith counted adds node := by
  induction node using Node.induct with
  | h node ih =>
    intro s out s' hrun
    obtain ⟨change, s₁, hdescend, -, -, hover⟩ := law.editChildren_run (k := ()) (s := s)
      (law.fitsLayout hnode.root) (fun child hchild => law.edit (hnode.child hchild) ()) trivial
    have hbelow := editChildren_accounts
      (fun child hchild => ih child hchild (hnode.child hchild)) hdescend
    obtain ⟨change', s₂, hediting, hgain⟩ := hediting hnode hdescend hover
    have hedit : editor.edit node s = (.ok (some change'), s₂) := by
      rw [edit_eq, hbefore, hafter, pure_bind]
      exact Walk.ensuring_run hediting rfl
    have hadds : node.preorder.countP adds =
        (node.children.flatMap preorder).countP adds + (adds node).toNat := by
      rw [preorder_eq, List.countP_cons]
      cases adds node <;> rfl
    cases hedit.symm.trans hrun
    change s' + tallyAll counted [change'.result node] = _
    rw [tallyAll_cons, tallyAll_nil]
    omega

theorem Law.accounts
    (hediting : ∀ {node descend s s' change}, node.Every p → descend s = (.ok change, s') →
      node.Over R (change.result node) →
      ∃ change' s'', editor.editing node descend s = (.ok (some change'), s'') ∧
        s'' + (change'.result node).tally counted = s' + (change.result node).tally counted)
    {node : Node} (hnode : node.Every p) : editor.Accounts counted node :=
  accounts_iff.mpr (law.accountsWith hbefore hafter hediting hnode)

end Law

theorem AccountsWith.apply {root : Node} (h : editor.AccountsWith counted adds root) {s s' : Nat}
    {change : Change} (hrun : (editor.apply root).runFrom s = .ok (change, s')) :
    s' + (change.result root).tally counted =
      s + root.tally counted + root.preorder.countP adds := by
  rw [Walk.runFrom] at hrun
  split at hrun
  · rename_i found s₁ happly
    cases hrun
    rw [Editor.apply] at happly
    obtain ⟨out, s₂, hedit, hrest⟩ := run_bind_inv happly
    cases out with
    | none => cases hrest
    | some change =>
      cases hrest
      have hgain := h s (some change) s' hedit
      change s' + tallyAll counted [change.result root] = _ at hgain
      rwa [tallyAll_cons, tallyAll_nil, Nat.add_zero] at hgain
  · cases hrun

theorem Accounts.apply {root : Node} (h : editor.Accounts counted root) {s s' : Nat}
    {change : Change} (hrun : (editor.apply root).runFrom s = .ok (change, s')) :
    s' + (change.result root).tally counted = s + root.tally counted := by
  have hgain := (accounts_iff.mp h).apply hrun
  rwa [List.countP_false, Function.const_apply, Nat.add_zero] at hgain

end Editor

end GlslShrink
