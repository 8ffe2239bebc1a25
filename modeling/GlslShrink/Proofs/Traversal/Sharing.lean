import GlslShrink.Proofs.Traversal.Record

/-!
Nodes are rebuilt only where something changed. An edit of the children of a node leaves the node
the very one it was if and only if every child stays the very one it was. Otherwise the node is
rebuilt around what became of the children: it keeps its number, category, value and qualifiers, and
the children that did not change are still the very same (`Editor.editChildren_shares`). So if no
handler returns anything but the node itself or what the edit of its children gave, the whole tree
stays as it is (`Table.edit_unchanged`).
-/

set_option autoImplicit false

namespace GlslShrink

open Walk

/-! ### What became of the children -/

/-- A child together with what an edit made of it. -/
abbrev EditedChild : Type :=
  Node × Option Change

namespace EditedChild

/-- The child is still the very same. -/
def IsKept (outcome : EditedChild) : Prop :=
  outcome.2 = some .unchanged

/-- The node that stands for the child afterwards, unless it is deleted. -/
def result? (outcome : EditedChild) : Option Node :=
  outcome.2.map fun change => change.result outcome.1

/-- What takes the place of the child has another mark, if it is another node. -/
def Remarks (outcome : EditedChild) : Prop :=
  ∀ other, outcome.2 = some (.became other) → other.mark ≠ outcome.1.mark

/-- The mark of the child is still there. -/
def KeepsMark (outcome : EditedChild) : Prop :=
  outcome.result?.map Node.mark = some outcome.1.mark

theorem keepsMark_iff {outcome : EditedChild} (h : outcome.Remarks) :
    outcome.KeepsMark ↔ outcome.IsKept := by
  rcases outcome with ⟨child, _ | (_ | other)⟩
  · exact iff_of_false (fun hmark => by cases hmark) fun hkept => by cases hkept
  · exact iff_of_true rfl rfl
  · exact iff_of_false (fun hmark => h other rfl (Option.some.inj hmark)) fun hkept => by
      cases hkept

/-- What stands in the place afterwards. -/
def settled : Slot EditedChild → Slot Node
  | .absent => .absent
  | .one outcome => .ofOption outcome.result?
  | .many outcomes => .many (outcomes.filterMap result?)

end EditedChild

namespace Editor

variable {σ : Type}

/-- The children are edited one after the other, with these outcomes. -/
inductive Edits (editor : Editor σ) : List EditedChild → σ → σ → Prop where
  | nil (s : σ) : Edits editor [] s s
  | cons {node : Node} {change : Option Change} {outcomes : List EditedChild} {s s₁ s₂ : σ}
    (hfirst : editor.edit node s = (.ok change, s₁)) (hrest : Edits editor outcomes s₁ s₂) :
    Edits editor ((node, change) :: outcomes) s s₂

variable {editor : Editor σ}

theorem Edits.append {before after : List EditedChild} {s s₁ s₂ : σ}
    (hbefore : editor.Edits before s s₁) (hafter : editor.Edits after s₁ s₂) :
    editor.Edits (before ++ after) s s₂ := by
  induction hbefore with
  | nil s => exact hafter
  | cons hfirst hrest ih => exact .cons hfirst (ih hafter)

theorem editList_shares {nodes : List Node} {s s' : σ} {found : List Node × Bool}
    (h : editor.editList nodes s = (.ok found, s')) :
    ∃ outcomes : List EditedChild, outcomes.map Prod.fst = nodes ∧ editor.Edits outcomes s s' ∧
      found.1 = outcomes.filterMap EditedChild.result? ∧
      (found.2 = false ↔ ∀ outcome ∈ outcomes, outcome.IsKept) := by
  induction nodes generalizing s s' found with
  | nil =>
    rw [editList] at h
    cases h
    exact ⟨[], rfl, .nil _, rfl, iff_of_true rfl fun outcome hmem => by cases hmem⟩
  | cons node nodes ih =>
    rw [editList] at h
    obtain ⟨change, s₁, hfirst, h⟩ := run_bind_inv h
    obtain ⟨others, s₂, hrest, h⟩ := run_bind_inv h
    obtain ⟨outcomes, hnodes, hedits, hresults, hkept⟩ := ih hrest
    refine ⟨(node, change) :: outcomes, by rw [List.map_cons, hnodes], ?_⟩
    rw [List.forall_mem_cons, List.filterMap_cons]
    rcases change with _ | (_ | other) <;> cases h
    · exact ⟨.cons hfirst hedits, hresults,
        iff_of_false Bool.noConfusion fun hall => by cases hall.1⟩
    · refine ⟨.cons hfirst hedits, congrArg _ hresults, ?_⟩
      rw [hkept]
      exact ⟨fun hall => ⟨rfl, hall⟩, And.right⟩
    · exact ⟨.cons hfirst hedits, congrArg _ hresults,
        iff_of_false Bool.noConfusion fun hall => by cases hall.1⟩

theorem editSlot_shares {slot : Slot Node} {parent : Node} {i : Nat} {s s' : σ}
    {found : Slot Node × Bool} (h : editor.editSlot parent i slot s = (.ok found, s')) :
    ∃ outcomes : Slot EditedChild, outcomes.map Prod.fst = slot ∧
      editor.Edits outcomes.toList s s' ∧ found.1 = EditedChild.settled outcomes ∧
      (found.2 = false ↔ ∀ outcome ∈ outcomes.toList, outcome.IsKept) := by
  cases slot with
  | absent =>
    rw [editSlot] at h
    cases h
    exact ⟨.absent, rfl, .nil _, rfl, iff_of_true rfl fun outcome hmem => by cases hmem⟩
  | one child =>
    rw [editSlot] at h
    obtain ⟨change, s₁, hfirst, h⟩ := run_bind_inv h
    refine ⟨.one (child, change), rfl, ?_⟩
    simp only [Slot.toList, List.forall_mem_singleton]
    rcases change with _ | (_ | other)
    · dsimp only at h
      split at h
      · cases h
        exact ⟨.cons hfirst (.nil _), rfl,
          iff_of_false Bool.noConfusion fun hkept => by cases hkept⟩
      · cases h
    · cases h
      exact ⟨.cons hfirst (.nil _), rfl, iff_of_true rfl rfl⟩
    · cases h
      exact ⟨.cons hfirst (.nil _), rfl, iff_of_false Bool.noConfusion fun hkept => by cases hkept⟩
  | many children =>
    rw [editSlot] at h
    obtain ⟨others, s₁, hrun, h⟩ := run_bind_inv h
    obtain ⟨outcomes, hnodes, hedits, hresults, hkept⟩ := editList_shares hrun
    cases h
    exact ⟨.many outcomes, congrArg _ hnodes, hedits, congrArg _ hresults, hkept⟩

theorem editSlots_shares {slots : List (Slot Node)} {parent : Node} {i : Nat} {s s' : σ}
    {found : List (Slot Node) × Bool}
    (h : editor.editSlots parent i slots s = (.ok found, s')) :
    ∃ outcomes : List (Slot EditedChild), outcomes.map (Slot.map Prod.fst) = slots ∧
      editor.Edits (outcomes.flatMap Slot.toList) s s' ∧
      found.1 = outcomes.map EditedChild.settled ∧
      (found.2 = false ↔ ∀ outcome ∈ outcomes.flatMap Slot.toList, outcome.IsKept) := by
  induction slots generalizing i s s' found with
  | nil =>
    rw [editSlots] at h
    cases h
    exact ⟨[], rfl, .nil _, rfl, iff_of_true rfl fun outcome hmem => by cases hmem⟩
  | cons slot slots ih =>
    rw [editSlots] at h
    obtain ⟨first, s₁, hfirst, h⟩ := run_bind_inv h
    obtain ⟨others, s₂, hothers, h⟩ := run_bind_inv h
    obtain ⟨outcome, hslot, hedit, hsettled, hkept⟩ := editSlot_shares hfirst
    obtain ⟨outcomes, hslots, hedits, hsettleds, hkepts⟩ := ih hothers
    cases h
    refine ⟨outcome :: outcomes, ?_, ?_, ?_, ?_⟩
    · rw [List.map_cons, hslot, hslots]
    · rw [List.flatMap_cons]
      exact hedit.append hedits
    · rw [List.map_cons, hsettled, hsettleds]
    · rw [List.flatMap_cons, List.forall_mem_append, ← hkept, ← hkepts, Bool.or_eq_false_iff]

/-- The edit of the children of a node, child by child: the node is still the very same if and only
if all its children are, and otherwise it is rebuilt around what became of them. -/
structure Shares (editor : Editor σ) (node : Node) (s : σ) (change : Change) (s' : σ)
    (outcomes : List (Slot EditedChild)) : Prop where
  children : outcomes.map (Slot.map Prod.fst) = node.slots
  edits : editor.Edits (outcomes.flatMap Slot.toList) s s'
  unchanged : change = .unchanged ↔ ∀ outcome ∈ outcomes.flatMap Slot.toList, outcome.IsKept
  rebuilt : ∀ new, change = .became new → new.mark.id = node.mark.id ∧ new.tag = node.tag ∧
    new.value = node.value ∧ new.qualifiers = node.qualifiers ∧
    new.slots = outcomes.map EditedChild.settled
  marks : (∀ outcome ∈ outcomes.flatMap Slot.toList, outcome.Remarks) →
    ((change.result node).mark = node.mark ↔
      ∀ outcome ∈ outcomes.flatMap Slot.toList, outcome.KeepsMark)

/-- Marks tell the same: the node has its mark afterwards if and only if every child has. -/
theorem mark_eq_iff {node : Node} {change : Change} {outcomes : List EditedChild}
    (hunchanged : change = .unchanged ↔ ∀ outcome ∈ outcomes, outcome.IsKept)
    (hmark : ∀ new, change = .became new → new.mark ≠ node.mark)
    (hremarks : ∀ outcome ∈ outcomes, outcome.Remarks) :
    (change.result node).mark = node.mark ↔ ∀ outcome ∈ outcomes, outcome.KeepsMark := by
  rw [forall₂_congr fun outcome houtcome => EditedChild.keepsMark_iff (hremarks outcome houtcome),
    ← hunchanged]
  cases change with
  | unchanged => exact iff_of_true rfl rfl
  | became new => exact iff_of_false (hmark new rfl) Change.noConfusion

theorem editChildren_shares {node : Node} {s s' : σ} {change : Change}
    (h : editor.editChildren node s = (.ok change, s')) :
    ∃ outcomes, editor.Shares node s change s' outcomes := by
  rw [editChildren] at h
  obtain ⟨_, s₁, hlayout, h⟩ := run_bind_inv h
  obtain ⟨⟨edited, changed⟩, s₂, hslots, h⟩ := run_bind_inv h
  have hstate : s₁ = s := by
    rw [checkLayout] at hlayout
    split at hlayout <;> cases hlayout
    rfl
  rw [hstate] at hslots
  obtain ⟨outcomes, hchildren, hedits, hsettled, hkept⟩ := editSlots_shares hslots
  have hunchanged : change = .unchanged ↔
      ∀ outcome ∈ outcomes.flatMap Slot.toList, outcome.IsKept := by
    rw [← hkept]
    cases changed <;> cases h
    · exact iff_of_true rfl rfl
    · exact iff_of_false Change.noConfusion Bool.noConfusion
  have hrebuilt : ∀ new, change = .became new →
      new = node.withSlots (outcomes.map EditedChild.settled) := by
    rintro new rfl
    cases changed <;> cases h
    rw [← hsettled]
  cases h
  refine ⟨outcomes, hchildren, hedits, hunchanged, fun new hnew => ?_,
    mark_eq_iff hunchanged fun new hnew hmark => ?_⟩
  · rw [hrebuilt new hnew]
    exact ⟨rfl, rfl, rfl, rfl, rfl⟩
  · rw [hrebuilt new hnew] at hmark
    exact absurd (congrArg Mark.revision hmark) (Nat.succ_ne_self node.mark.revision)

end Editor

/-! ### Trees that stay as they are -/

/-- The handler of a node returns the node itself or what an edit of its children gave. -/
def Event.IsOwn : Event → Prop
  | returned _ made change => change = some .unchanged ∨ ∃ own ∈ made, change = some own
  | _ => True

namespace Walk

variable {σ α β : Type} {p : Event → Prop} {q : α → Prop} {q' : β → Prop}

/-- The walk only adds to the record. -/
def Appends (walk : Walk (Recorded σ) α) : Prop :=
  ∀ r, r.events <+: (walk r).2.events

theorem appends_bind {x : Walk (Recorded σ) α} {f : α → Walk (Recorded σ) β} (hx : Appends x)
    (hf : ∀ a, Appends (f a)) : Appends (x >>= f) := by
  intro r
  have hfirst := hx r
  rcases hrun : x r with ⟨fault | a, r'⟩ <;> rw [hrun] at hfirst
  · rw [run_bind_error hrun]
    exact hfirst
  · rw [run_bind hrun]
    exact hfirst.trans (hf a r')

theorem appends_note (events : List Event) : Appends (note events : Walk (Recorded σ) Unit) :=
  (records_note events).append

theorem appends_pure (a : α) : Appends (pure a : Walk (Recorded σ) α) :=
  (records_pure a).append

/-- If everything in the record has the first property, what the walk returns has the second one. -/
def GivesIf (p : Event → Prop) (q : α → Prop) (walk : Walk (Recorded σ) α) : Prop :=
  ∀ r a r', walk r = (.ok a, r') → (∀ event ∈ r'.events, p event) → q a

theorem givesIf_pure {a : α} (h : q a) : GivesIf p q (pure a : Walk (Recorded σ) α) := by
  intro r a' r' hrun _
  cases hrun
  exact h

theorem givesIf_trivial (walk : Walk (Recorded σ) α) : GivesIf p (fun _ => True) walk :=
  fun _ _ _ _ _ => trivial

theorem givesIf_bind {x : Walk (Recorded σ) α} {f : α → Walk (Recorded σ) β} (hx : GivesIf p q x)
    (happends : ∀ a, Appends (f a)) (hf : ∀ a, q a → GivesIf p q' (f a)) :
    GivesIf p q' (x >>= f) := by
  intro r b r' hrun hevents
  obtain ⟨a, middle, hfirst, hrest⟩ := run_bind_inv hrun
  have happend := happends a middle
  rw [hrest] at happend
  have ha : q a := hx r a middle hfirst fun event hevent => hevents event (happend.subset hevent)
  exact hf a ha middle b r' hrest hevents

theorem givesIf_ensuring {body : Walk (Recorded σ) α} {after : Walk (Recorded σ) Unit}
    (hbody : GivesIf p q body) (happends : Appends after) : GivesIf p q (ensuring body after) := by
  intro r a r' hrun hevents
  rw [ensuring] at hrun
  rcases hrun' : body r with ⟨fault | b, middle⟩ <;> rw [hrun'] at hrun <;> dsimp only at hrun
  · cases hrun
  · have happend := happends middle
    rcases hafter : after middle with ⟨fault | _, last⟩ <;> rw [hafter] at hrun happend <;>
      cases hrun
    exact hbody r a middle hrun' fun event hevent => hevents event (happend.subset hevent)

/-- A handler that returns only its own, after edits of the children that changed nothing. -/
theorem givesIf_handler {node : Node} {children : Walk (Recorded σ) Change}
    {children' : Walk σ Change} (hchildren : GivesIf Event.IsOwn (· = .unchanged) children)
    (hrecords : Records children children') (handler : Handler σ Change (Option Change))
    {made : List Change}
    (hmade : ∀ change ∈ made, change = .unchanged) :
    GivesIf Event.IsOwn (· = some .unchanged)
      (handler.record (fun made change => [.returned node made change]) children made) := by
  induction handler generalizing made with
  | finish result =>
    intro r a r' hrun hevents
    cases hrun
    have hown : (Event.returned node made result).IsOwn :=
      hevents _ (List.mem_append_right _ (List.mem_singleton.mpr rfl))
    rcases hown with hown | ⟨own, hmem, hown⟩
    · exact hown
    · rw [hown, hmade own hmem]
  | fail fault =>
    intro r a r' hrun _
    cases hrun
  | update change next ih =>
    exact fun r => ih r.state hmade { r with state := change r.state }
  | descend next ih =>
    refine givesIf_bind hchildren (fun change => (records_handler hrecords _ _).append)
      fun change hchange => ih change fun other hother => ?_
    rcases List.mem_append.mp hother with hother | hother
    · exact hmade other hother
    · rw [List.mem_singleton.mp hother, hchange]
  | attempt next ih =>
    intro r a r' hrun hevents
    have happend : (children r).2.events <+: r'.events := by
      have hafter := congrArg (fun run => run.2.events) hrun
      rw [← hafter]
      exact (records_handler hrecords _ _).append _
    refine ih (children r).1 (fun other hother => ?_) (children r).2 a r' hrun hevents
    rcases List.mem_append.mp hother with hother | hother
    · exact hmade other hother
    · rcases houtcome : children r with ⟨fault | change, middle⟩ <;> rw [houtcome] at hother happend
      · cases hother
      · rw [List.mem_singleton.mp hother]
        exact hchildren r change middle houtcome fun event hevent =>
          hevents event (happend.subset hevent)

end Walk

namespace Table

variable {σ : Type} {table : Table σ Change (Option Change)}

/-- The node stays the very same if no handler returns anything but its own. -/
def Stays (table : Table σ Change (Option Change)) (node : Node) : Prop :=
  GivesIf Event.IsOwn (· = some .unchanged) (table.record node)

theorem appends_recordList (parent : Node) (i : Nat) (nodes : List Node) :
    Appends (table.recordList parent i nodes) :=
  (records_recordList (fun node _ => table.records_edit node) parent i).append

theorem stays_recordList {nodes : List Node} (h : ∀ node ∈ nodes, table.Stays node) (parent : Node)
    (i : Nat) : GivesIf Event.IsOwn (fun found => found.2 = false)
      (table.recordList parent i nodes) := by
  induction nodes with
  | nil => exact givesIf_pure rfl
  | cons node nodes ih =>
    obtain ⟨hnode, hnodes⟩ := List.forall_mem_cons.mp h
    rw [recordList]
    refine givesIf_bind hnode (fun change => ?_) fun change hchange => ?_
    · refine appends_bind (appends_note _) fun _ =>
        appends_bind (appends_recordList parent i nodes) fun others => ?_
      rcases change with _ | (_ | _) <;> exact appends_pure _
    · subst hchange
      exact givesIf_bind (givesIf_trivial _)
        (fun _ => appends_bind (appends_recordList parent i nodes) fun _ => appends_pure _)
        fun _ _ => givesIf_bind (ih hnodes) (fun _ => appends_pure _) fun _ hothers =>
          givesIf_pure hothers

theorem stays_recordSlot {slot : Slot Node} (h : ∀ node ∈ slot.toList, table.Stays node)
    (parent : Node) (i : Nat) :
    GivesIf Event.IsOwn (fun found => found.2 = false) (table.recordSlot parent i slot) := by
  cases slot with
  | absent => exact givesIf_pure rfl
  | one child =>
    rw [recordSlot]
    refine givesIf_bind (h child (List.mem_singleton.mpr rfl)) (fun change => ?_)
      fun change hchange => ?_
    · refine appends_bind (appends_note _) fun _ => ?_
      rcases change with _ | (_ | _)
      · dsimp only
        split
        · exact appends_pure _
        · exact (records_throw _).append
      · exact appends_pure _
      · exact appends_pure _
    · subst hchange
      exact givesIf_bind (givesIf_trivial _) (fun _ => appends_pure _) fun _ _ => givesIf_pure rfl
  | many children =>
    rw [recordSlot]
    exact givesIf_bind (stays_recordList h parent i) (fun _ => appends_pure _) fun _ hfound =>
      givesIf_pure hfound

theorem stays_recordSlots {slots : List (Slot Node)}
    (h : ∀ node ∈ slots.flatMap Slot.toList, table.Stays node) (parent : Node) (i : Nat) :
    GivesIf Event.IsOwn (fun found => found.2 = false) (table.recordSlots parent i slots) := by
  induction slots generalizing i with
  | nil => exact givesIf_pure rfl
  | cons slot slots ih =>
    rw [List.flatMap_cons, List.forall_mem_append] at h
    rw [recordSlots]
    refine givesIf_bind (stays_recordSlot h.1 parent i) (fun _ => ?_) fun first hfirst =>
      givesIf_bind (ih h.2 (i + 1)) (fun _ => appends_pure _) fun others hothers => givesIf_pure ?_
    · exact appends_bind (records_recordSlots (fun node _ => table.records_edit node) _ _).append
        fun _ => appends_pure _
    · rw [hfirst, hothers]
      rfl

theorem stays_recordChildren {node : Node} (h : ∀ child ∈ node.children, table.Stays child) :
    GivesIf Event.IsOwn (· = .unchanged) (table.recordChildren node) := by
  refine givesIf_bind (givesIf_trivial _) (fun _ => ?_) fun _ _ =>
    givesIf_bind (stays_recordSlots h node 0) (fun _ => appends_pure _) fun found hfound =>
      givesIf_pure ?_
  · exact appends_bind (records_recordSlots (fun node _ => table.records_edit node) _ _).append
      fun _ => appends_pure _
  · rw [hfound]
    rfl

theorem stays (node : Node) : table.Stays node := by
  induction node using Node.induct with
  | h node ih =>
    have hrecords : Records (table.recordChildren node) (table.editor.editChildren node) :=
      records_recordChildren fun child _ => table.records_edit child
    rw [Stays, record_eq]
    refine givesIf_bind (givesIf_trivial _) (fun _ => ?_) fun _ _ =>
      givesIf_ensuring (givesIf_handler (stays_recordChildren ih) hrecords _ ?_)
        (records_recorded _ _).append
    · exact (records_ensuring (records_handler hrecords _ _) (records_recorded _ _)).append
    · intro change hchange
      cases hchange

/-- An edit in which every handler returns its own leaves the tree the very one it was. -/
theorem edit_unchanged {node : Node} {s s' : σ} {out : Option Change}
    (hrun : table.editor.edit node s = (.ok out, s'))
    (hown : ∀ event ∈ table.events node s, event.IsOwn) : out = some .unchanged := by
  obtain ⟨more, hrecord⟩ := table.records_edit node { state := s }
  rw [events, hrecord] at hown
  rw [hrun] at hrecord
  exact stays node _ _ _ hrecord hown

theorem apply_unchanged {root : Node} {s s' : σ} {change : Change}
    (hrun : table.editor.apply root s = (.ok change, s'))
    (hown : ∀ event ∈ table.events root s, event.IsOwn) : change = .unchanged := by
  rw [Editor.apply] at hrun
  obtain ⟨out, s₁, hedit, hrest⟩ := run_bind_inv hrun
  rw [edit_unchanged hedit hown] at hrest
  cases hrest
  rfl

end Table

/-- An edit of the children of a node keeps the node if and only if it keeps all children, and
rebuilds it otherwise around what became of them. So an edit of a whole tree in which every handler
returns its own keeps the tree. -/
theorem edits_share :
    (∀ {σ : Type} {editor : Editor σ} {node : Node} {s s' : σ} {change : Change},
      editor.editChildren node s = (.ok change, s') →
        ∃ outcomes, editor.Shares node s change s' outcomes) ∧
    ∀ {σ : Type} {table : Table σ Change (Option Change)} {node : Node} {s s' : σ},
      (∀ event ∈ table.events node s, event.IsOwn) →
        (∀ {out}, table.editor.edit node s = (.ok out, s') → out = some .unchanged) ∧
        ∀ {change}, table.editor.apply node s = (.ok change, s') → change = .unchanged :=
  ⟨Editor.editChildren_shares, fun hown =>
    ⟨fun hrun => Table.edit_unchanged hrun hown, fun hrun => Table.apply_unchanged hrun hown⟩⟩

/-- Gives the name `b` to what is named `a`. -/
def renamesAToB : Table Unit Change (Option Change) where
  handler node := .descend fun change => .finish (some
    (if node.value = "a" then .became ((change.result node).withValue "b") else change))

/-- The sum of a name and `1`; the number says how often the sum and the name have been rebuilt. -/
def plusOne (name : String) (revision : Nat) : Node :=
  ⟨⟨some 0, revision⟩, .binary, "+", [],
    [.one ⟨⟨some 1, revision⟩, .identifier, name, [], []⟩,
      .one ⟨⟨some 2, 0⟩, .intLiteral, "1", [], []⟩]⟩

/-- In `a + 1` the sum is rebuilt around the same `1`, and `c + 1` is kept. -/
theorem edits_share_plusOne :
    (∃ outcomes,
      renamesAToB.editor.Shares (plusOne "a" 0) () (.became (plusOne "b" 1)) () outcomes) ∧
      (renamesAToB.editor.apply (plusOne "c" 0) ()).1 = .ok .unchanged := by
  -- the handlers of `c`, `1` and the sum return, and after each of the first two an edit ends
  have hown : ∀ event ∈ renamesAToB.events (plusOne "c" 0) (), event.IsOwn :=
    List.forall_mem_cons.mpr ⟨.inl rfl, List.forall_mem_cons.mpr ⟨trivial,
      List.forall_mem_cons.mpr ⟨.inl rfl, List.forall_mem_cons.mpr ⟨trivial,
        List.forall_mem_singleton.mpr (.inl rfl)⟩⟩⟩⟩
  obtain ⟨change, hrun⟩ :
      ∃ change, renamesAToB.editor.apply (plusOne "c" 0) () = (.ok change, ()) :=
    ⟨.unchanged, by rfl⟩
  refine ⟨edits_share.1 (by rfl), ?_⟩
  rw [hrun, (edits_share.2 hown).2 hrun]

end GlslShrink
