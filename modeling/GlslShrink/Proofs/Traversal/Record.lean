import GlslShrink.Proofs.Traversal.Handlers

/-!
Traversals that keep a record. The record lists, in the order in which they happen, the failures of
hooks and handlers, the nodes that do not match their layout, what became of each child, and what
each handler returned. Keeping it changes nothing else (`Table.records_visit`,
`Table.records_edit`). If handlers pass on the faults of the children, a traversal fails with the
first fault of its record, and succeeds if there is none (`Table.reports_visit`,
`Table.reports_edit`).
-/

set_option autoImplicit false

namespace GlslShrink

/-- If the places from place `i` on match their part of a layout, so does the first of them, and so
do the others. -/
theorem Slot.fitAll_drop {α : Type} {slot : Slot α} {slots : List (Slot α)} {kinds : List SlotKind}
    {i : Nat} (h : fitAll (slot :: slots) (kinds.drop i) = true) :
    ∃ kind, kinds[i]? = some kind ∧ kinds.drop i = kind :: kinds.drop (i + 1) ∧
      slot.fits kind = true ∧ fitAll slots (kinds.drop (i + 1)) = true := by
  cases hkinds : kinds.drop i with
  | nil =>
    rw [hkinds] at h
    cases h
  | cons kind others =>
    rw [hkinds, fitAll, Bool.and_eq_true] at h
    have hothers : kinds.drop (i + 1) = others := by
      rw [← List.tail_drop, hkinds]
      rfl
    refine ⟨kind, ?_, by rw [hothers], h.1, hothers ▸ h.2⟩
    rw [← Nat.add_zero i, ← List.getElem?_drop, hkinds]
    rfl

/-! ### Events -/

/-- Something that happens in a traversal. -/
inductive Event where
  /-- A hook or a handler fails by itself. -/
  | failed (fault : Fault)
  | misshapen (node : Node)
  /-- A child has been edited; it is deleted if there is no change. -/
  | edited (parent : Node) (place : Nat) (child : Node) (change : Option Change)
  /-- The handler of a node returns; `made` is what its edits of the children gave. -/
  | returned (node : Node) (made : List Change) (change : Option Change)

namespace Event

/-- The parent and the place of a child that is deleted but required. -/
def deletion? : Event → Option (Node × Nat)
  | edited parent place _ none =>
    if parent.tag.layout[place]? = some .required then some (parent, place) else none
  | _ => none

/-- The fault that an event raises. -/
def fault? : Event → Option Fault
  | failed fault => some fault
  | misshapen node => some (.misshapen node.tag node.mark.id)
  | event => event.deletion?.map fun found => .deletedChild found.1.tag found.1.mark.id found.2

end Event

/-- The state of a traversal and the record so far. -/
structure Recorded (σ : Type) where
  state : σ
  events : List Event := []

/-- The faults that have been raised, in order. -/
def Recorded.faults {σ : Type} (r : Recorded σ) : List Fault :=
  r.events.filterMap Event.fault?

/-- The fault of an outcome that is none. -/
def Fault.of? {α : Type} : Except Fault α → Option Fault
  | .error fault => some fault
  | .ok _ => none

/-! ### Recording -/

namespace Walk

variable {σ α β : Type}

def note (events : List Event) : Walk (Recorded σ) Unit :=
  modify fun r => { r with events := r.events ++ events }

/-- The walk, with a note where it fails. -/
def recorded (event : Fault → Event) (walk : Walk σ α) : Walk (Recorded σ) α := fun r =>
  ((walk r.state).1, ⟨(walk r.state).2, r.events ++ (Fault.of? (walk r.state).1).toList.map event⟩)

end Walk

open Walk

/-- Runs a handler with a record: `returns` is what is noted where it finishes, after the traversals
of the children gave `made`. -/
def Handler.record {σ α β : Type} (returns : List α → β → List Event)
    (children : Walk (Recorded σ) α) : List α → Handler σ α β → Walk (Recorded σ) β
  | made, finish result => do
    note (returns made result)
    return result
  | _, fail fault => recorded .failed (throw fault)
  | made, update change next => fun r =>
    (next r.state).record returns children made { r with state := change r.state }
  | made, descend next => do
    let a ← children
    (next a).record returns children (made ++ [a])
  | made, attempt next => fun r =>
    (next (children r).1).record returns children (made ++ (children r).1.toOption.toList)
      (children r).2

namespace Table

variable {σ : Type}

/-- The visitor that keeps a record. The layout is checked once more, to note where it fails. -/
def recorder (table : Table σ Unit Unit) : Visitor (Recorded σ) where
  before node := recorded .failed (table.before node)
  after node := recorded .failed (table.after node)
  visiting node descend :=
    (table.handler node).record (fun _ _ => []) (do
      recorded (fun _ => .misshapen node) (checkLayout node)
      descend) []

mutual

/-- Edits a node and keeps a record. -/
def record (table : Table σ Change (Option Change)) : Node → Walk (Recorded σ) (Option Change)
  | ⟨mark, tag, value, qualifiers, slots⟩ => do
    let node : Node := ⟨mark, tag, value, qualifiers, slots⟩
    recorded .failed (table.before node)
    ensuring
      ((table.handler node).record (fun made change => [.returned node made change]) (do
        recorded (fun _ => .misshapen node) (checkLayout node)
        let found ← table.recordSlots node 0 slots
        return if found.2 then .became (node.withSlots found.1) else .unchanged) [])
      (recorded .failed (table.after node))

def recordSlots (table : Table σ Change (Option Change)) (parent : Node) (i : Nat) :
    List (Slot Node) → Walk (Recorded σ) (List (Slot Node) × Bool)
  | [] => return ([], false)
  | slot :: slots => do
    let first ← table.recordSlot parent i slot
    let others ← table.recordSlots parent (i + 1) slots
    return (first.1 :: others.1, first.2 || others.2)

def recordSlot (table : Table σ Change (Option Change)) (parent : Node) (i : Nat) :
    Slot Node → Walk (Recorded σ) (Slot Node × Bool)
  | .absent => return (.absent, false)
  | .one child => do
    let change ← table.record child
    note [.edited parent i child change]
    match change with
    | some .unchanged => return (.one child, false)
    | some (.became node) => return (.one node, true)
    | none =>
      if parent.tag.layout[i]? = some .optional then return (.absent, true)
      else throw (.deletedChild parent.tag parent.mark.id i)
  | .many children => do
    let found ← table.recordList parent i children
    return (.many found.1, found.2)

def recordList (table : Table σ Change (Option Change)) (parent : Node) (i : Nat) :
    List Node → Walk (Recorded σ) (List Node × Bool)
  | [] => return ([], false)
  | node :: nodes => do
    let change ← table.record node
    note [.edited parent i node change]
    let others ← table.recordList parent i nodes
    match change with
    | some .unchanged => return (node :: others.1, others.2)
    | some (.became other) => return (other :: others.1, true)
    | none => return (others.1, true)

end

/-- The edit of the children of a node, with a record. -/
def recordChildren (table : Table σ Change (Option Change)) (node : Node) :
    Walk (Recorded σ) Change := do
  recorded (fun _ => .misshapen node) (checkLayout node)
  let found ← table.recordSlots node 0 node.slots
  return if found.2 then .became (node.withSlots found.1) else .unchanged

/-- What happens in an edit of a whole tree. -/
def events (table : Table σ Change (Option Change)) (root : Node) (s : σ) : List Event :=
  (table.record root { state := s }).2.events

theorem record_eq (table : Table σ Change (Option Change)) (node : Node) :
    table.record node = (do
      recorded .failed (table.before node)
      ensuring
        ((table.handler node).record (fun made change => [.returned node made change])
          (table.recordChildren node) [])
        (recorded .failed (table.after node))) := by
  cases node with
  | mk mark tag value qualifiers slots => rw [record]; rfl

end Table

/-! ### The record changes nothing -/

namespace Walk

variable {σ α β : Type}

/-- The first walk does what the second one does, and adds to the record. -/
def Records (recording : Walk (Recorded σ) α) (walk : Walk σ α) : Prop :=
  ∀ r, ∃ more, recording r = ((walk r.state).1, ⟨(walk r.state).2, r.events ++ more⟩)

theorem records_pure (a : α) : Records (pure a : Walk (Recorded σ) α) (pure a) :=
  fun r => ⟨[], by rw [List.append_nil]; rfl⟩

theorem records_throw (fault : Fault) :
    Records (throw fault : Walk (Recorded σ) α) (throw fault) :=
  fun r => ⟨[], by rw [List.append_nil]; rfl⟩

theorem records_note (events : List Event) :
    Records (note events : Walk (Recorded σ) Unit) (pure ()) :=
  fun _ => ⟨events, rfl⟩

theorem records_recorded (event : Fault → Event) (walk : Walk σ α) :
    Records (recorded event walk) walk :=
  fun _ => ⟨_, rfl⟩

theorem records_bind {x : Walk (Recorded σ) α} {f : α → Walk (Recorded σ) β} {y : Walk σ α}
    {g : α → Walk σ β} (hx : Records x y) (hf : ∀ a, Records (f a) (g a)) :
    Records (x >>= f) (y >>= g) := by
  intro r
  obtain ⟨more, hrun⟩ := hx r
  rcases hy : y r.state with ⟨fault | a, s⟩ <;> rw [hy] at hrun
  · exact ⟨more, by rw [run_bind_error hrun, run_bind_error hy]⟩
  · obtain ⟨others, hothers⟩ := hf a ⟨s, r.events ++ more⟩
    refine ⟨more ++ others, ?_⟩
    rw [run_bind hrun, run_bind hy, hothers, List.append_assoc]

/-- Notes are all that a walk may do more. -/
theorem records_note_bind (events : List Event) {f : Unit → Walk (Recorded σ) β} {walk : Walk σ β}
    (hf : Records (f ()) walk) : Records (note events >>= f) walk := by
  have h := records_bind (g := fun _ => walk) (records_note events) fun _ => hf
  rwa [pure_bind] at h

theorem records_ensuring {body : Walk (Recorded σ) α} {body' : Walk σ α}
    {after : Walk (Recorded σ) Unit} {after' : Walk σ Unit} (hbody : Records body body')
    (hafter : Records after after') : Records (ensuring body after) (ensuring body' after') := by
  intro r
  obtain ⟨more, hrun⟩ := hbody r
  obtain ⟨others, hothers⟩ := hafter ⟨(body' r.state).2, r.events ++ more⟩
  refine ⟨more ++ others, ?_⟩
  rw [ensuring, ensuring, hrun, ← List.append_assoc]
  rcases hbody' : body' r.state with ⟨fault | a, s⟩ <;> rw [hbody'] at hothers <;> dsimp only
  · rw [hothers]
  · rw [hothers]
    rcases hafter' : after' s with ⟨fault | _, s'⟩ <;> rfl

theorem records_handler {returns : List α → β → List Event} {children : Walk (Recorded σ) α}
    {children' : Walk σ α} (hchildren : Records children children') (handler : Handler σ α β)
    (made : List α) : Records (handler.record returns children made) (handler.run children') := by
  induction handler generalizing made with
  | finish result => exact records_note_bind _ (records_pure result)
  | fail fault => exact records_recorded _ _
  | update change next ih =>
    intro r
    exact ih r.state made { r with state := change r.state }
  | descend next ih => exact records_bind hchildren fun a => ih a (made ++ [a])
  | attempt next ih =>
    intro r
    obtain ⟨more, hrun⟩ := hchildren r
    obtain ⟨others, hothers⟩ := ih (children' r.state).1
      (made ++ (children' r.state).1.toOption.toList) ⟨(children' r.state).2, r.events ++ more⟩
    refine ⟨more ++ others, ?_⟩
    rw [Handler.record, Handler.run, ← List.append_assoc]
    dsimp only
    rw [hrun]
    exact hothers

theorem Records.append {recording : Walk (Recorded σ) α} {walk : Walk σ α}
    (h : Records recording walk) (r : Recorded σ) : r.events <+: (recording r).2.events := by
  obtain ⟨more, hrun⟩ := h r
  rw [hrun]
  exact List.prefix_append _ _

theorem recorded_misshapen (event : Fault → Event) {node : Node} (h : node.fitsLayout = false)
    (r : Recorded σ) : recorded event (checkLayout node) r =
      (.error (.misshapen node.tag node.mark.id),
        ⟨r.state, r.events ++ [event (.misshapen node.tag node.mark.id)]⟩) := by
  rw [recorded, checkLayout, h]
  rfl

/-- A layout that has been checked need not be checked again. -/
theorem checkLayout_again (event : Fault → Event) (node : Node) (walk : Walk (Recorded σ) α) :
    (do recorded event (checkLayout node); checkLayout node; walk) =
      (do recorded event (checkLayout node); walk) := by
  cases hfits : node.fitsLayout with
  | true =>
    have hcheck : (checkLayout node : Walk (Recorded σ) Unit) = pure () := by
      rw [checkLayout, if_pos hfits]
    rw [hcheck, pure_bind]
  | false =>
    funext r
    have hrun := recorded_misshapen event hfits r
    rw [run_bind_error hrun, run_bind_error hrun]

end Walk

namespace Table

variable {σ : Type}

section Visits

variable {table : Table σ Unit Unit}

theorem records_visitList {nodes : List Node}
    (h : ∀ node ∈ nodes, Records (table.recorder.visit node) (table.visitor.visit node)) :
    Records (table.recorder.visitList nodes) (table.visitor.visitList nodes) := by
  induction nodes with
  | nil => exact records_pure ()
  | cons node nodes ih =>
    obtain ⟨hnode, hnodes⟩ := List.forall_mem_cons.mp h
    rw [Visitor.visitList, Visitor.visitList]
    exact records_bind hnode fun _ => ih hnodes

theorem records_visitSlots {slots : List (Slot Node)}
    (h : ∀ node ∈ slots.flatMap Slot.toList,
      Records (table.recorder.visit node) (table.visitor.visit node)) :
    Records (table.recorder.visitSlots slots) (table.visitor.visitSlots slots) := by
  induction slots with
  | nil => exact records_pure ()
  | cons slot slots ih =>
    rw [List.flatMap_cons, List.forall_mem_append] at h
    rw [Visitor.visitSlots, Visitor.visitSlots]
    refine records_bind ?_ fun _ => ih h.2
    cases slot with
    | absent => exact records_pure ()
    | one child => exact h.1 child (List.mem_singleton.mpr rfl)
    | many children => exact records_visitList h.1

theorem records_visit (table : Table σ Unit Unit) (node : Node) :
    Records (table.recorder.visit node) (table.visitor.visit node) := by
  induction node using Node.induct with
  | h node ih =>
    rw [Visitor.visit_eq, Visitor.visit_eq]
    refine records_bind (records_recorded _ _) fun _ => records_ensuring ?_ (records_recorded _ _)
    refine records_handler ?_ _ _
    rw [Visitor.visitChildren, checkLayout_again]
    exact records_bind (records_recorded _ _) fun _ => records_visitSlots ih

end Visits

section Edits

variable {table : Table σ Change (Option Change)}

theorem records_recordList {nodes : List Node}
    (h : ∀ node ∈ nodes, Records (table.record node) (table.editor.edit node)) (parent : Node)
    (i : Nat) : Records (table.recordList parent i nodes) (table.editor.editList nodes) := by
  induction nodes with
  | nil => exact records_pure _
  | cons node nodes ih =>
    obtain ⟨hnode, hnodes⟩ := List.forall_mem_cons.mp h
    rw [recordList, Editor.editList]
    refine records_bind hnode fun change => records_note_bind _ ?_
    refine records_bind (ih hnodes) fun others => ?_
    rcases change with _ | (_ | _) <;> exact records_pure _

theorem records_recordSlot {slot : Slot Node}
    (h : ∀ node ∈ slot.toList, Records (table.record node) (table.editor.edit node))
    (parent : Node) (i : Nat) :
    Records (table.recordSlot parent i slot) (table.editor.editSlot parent i slot) := by
  cases slot with
  | absent => exact records_pure _
  | one child =>
    rw [recordSlot, Editor.editSlot]
    refine records_bind (h child (List.mem_singleton.mpr rfl)) fun change =>
      records_note_bind _ ?_
    rcases change with _ | (_ | _)
    · dsimp only
      split
      · exact records_pure _
      · exact records_throw _
    · exact records_pure _
    · exact records_pure _
  | many children =>
    rw [recordSlot, Editor.editSlot]
    exact records_bind (records_recordList h parent i) fun _ => records_pure _

theorem records_recordSlots {slots : List (Slot Node)}
    (h : ∀ node ∈ slots.flatMap Slot.toList, Records (table.record node) (table.editor.edit node))
    (parent : Node) (i : Nat) :
    Records (table.recordSlots parent i slots) (table.editor.editSlots parent i slots) := by
  induction slots generalizing i with
  | nil => exact records_pure _
  | cons slot slots ih =>
    rw [List.flatMap_cons, List.forall_mem_append] at h
    rw [recordSlots, Editor.editSlots]
    exact records_bind (records_recordSlot h.1 parent i) fun _ =>
      records_bind (ih h.2 (i + 1)) fun _ => records_pure _

theorem records_recordChildren {node : Node}
    (h : ∀ child ∈ node.children, Records (table.record child) (table.editor.edit child)) :
    Records (table.recordChildren node) (table.editor.editChildren node) :=
  records_bind (records_recorded _ _) fun _ =>
    records_bind (records_recordSlots h node 0) fun _ => records_pure _

theorem records_edit (table : Table σ Change (Option Change)) (node : Node) :
    Records (table.record node) (table.editor.edit node) := by
  induction node using Node.induct with
  | h node ih =>
    rw [record_eq, Editor.edit_eq]
    exact records_bind (records_recorded _ _) fun _ => records_ensuring
      (records_handler (records_recordChildren ih) _ _) (records_recorded _ _)

end Edits

end Table

/-! ### The first fault -/

namespace Walk

variable {σ α β : Type}

/-- Where nothing has failed before, the walk fails with the first fault of its record and succeeds
if there is none. -/
def Reports (walk : Walk (Recorded σ) α) : Prop :=
  ∀ r, r.faults = [] → Fault.of? (walk r).1 = (walk r).2.faults.head?

theorem reports_pure (a : α) : Reports (pure a : Walk (Recorded σ) α) := by
  intro r hr
  show none = r.faults.head?
  rw [hr]
  rfl

theorem reports_note {events : List Event} (h : ∀ event ∈ events, event.fault? = none) :
    Reports (note events : Walk (Recorded σ) Unit) := by
  intro r hr
  have hnone : events.filterMap Event.fault? = [] := List.filterMap_eq_nil_iff.mpr h
  show none = (List.filterMap Event.fault? (r.events ++ events)).head?
  rw [List.filterMap_append, hnone, List.append_nil]
  exact (congrArg List.head? hr).symm

/-- A note that names the fault with which the walk fails. -/
theorem reports_recorded {event : Fault → Event} {walk : Walk σ α}
    (h : ∀ s fault, (walk s).1 = .error fault → (event fault).fault? = some fault) :
    Reports (recorded event walk) := by
  intro r hr
  have hevents : r.events.filterMap Event.fault? = [] := hr
  rw [recorded, Recorded.faults]
  rcases houtcome : (walk r.state).1 with fault | a
  · simp [Fault.of?, hevents, h r.state fault houtcome]
  · simp [Fault.of?, hevents]

theorem reports_failed (walk : Walk σ α) : Reports (recorded .failed walk) :=
  reports_recorded fun _ _ _ => rfl

theorem reports_bind {x : Walk (Recorded σ) α} {f : α → Walk (Recorded σ) β} (hx : Reports x)
    (hf : ∀ a, Reports (f a)) : Reports (x >>= f) := by
  intro r hr
  have hfirst := hx r hr
  rcases hrun : x r with ⟨fault | a, r'⟩ <;> rw [hrun] at hfirst
  · rw [run_bind_error hrun]
    exact hfirst
  · rw [run_bind hrun]
    exact hf a r' (List.head?_eq_none_iff.mp hfirst.symm)

/-- A fault of the body is not replaced by one of what runs afterwards. -/
theorem reports_ensuring {body : Walk (Recorded σ) α} {after : Walk (Recorded σ) Unit}
    (hbody : Reports body) (hafter : Reports after)
    (happend : ∀ r, r.events <+: (after r).2.events) : Reports (ensuring body after) := by
  intro r hr
  have hfirst := hbody r hr
  rw [ensuring]
  rcases hrun : body r with ⟨fault | a, r'⟩ <;> rw [hrun] at hfirst <;> dsimp only
  · obtain ⟨others, hothers⟩ := List.head?_eq_some_iff.mp hfirst.symm
    obtain ⟨more, hmore⟩ := happend r'
    have hfaults : (after r').2.faults = fault :: others ++ more.filterMap Event.fault? := by
      rw [Recorded.faults, ← hmore, List.filterMap_append, ← hothers]
      rfl
    rw [hfaults]
    rfl
  · have hlast := hafter r' (List.head?_eq_none_iff.mp hfirst.symm)
    rcases hrun' : after r' with ⟨fault | _, r''⟩ <;> rw [hrun'] at hlast <;> exact hlast

theorem reports_handler {returns : List α → β → List Event} {children : Walk (Recorded σ) α}
    (hreturns : ∀ made result, ∀ event ∈ returns made result, event.fault? = none)
    (hchildren : Reports children) {handler : Handler σ α β} (h : handler.PassesOn)
    (made : List α) : Reports (handler.record returns children made) := by
  induction handler generalizing made with
  | finish result =>
    exact reports_bind (reports_note (hreturns made result)) fun _ => reports_pure result
  | fail fault => exact reports_failed _
  | update change next ih =>
    intro r hr
    exact ih r.state (h r.state) made { r with state := change r.state } hr
  | descend next ih => exact reports_bind hchildren fun a => ih a (h a) (made ++ [a])
  | attempt next ih => exact h.elim

theorem reports_layout (node : Node) :
    Reports (recorded (σ := σ) (fun _ => .misshapen node) (checkLayout node)) := by
  refine reports_recorded fun s fault hfault => ?_
  rw [checkLayout] at hfault
  split at hfault
  · cases hfault
  · cases hfault
    rfl

end Walk

namespace Table

variable {σ : Type}

section Visits

variable {table : Table σ Unit Unit}

theorem reports_visitList {nodes : List Node}
    (h : ∀ node ∈ nodes, Reports (table.recorder.visit node)) :
    Reports (table.recorder.visitList nodes) := by
  induction nodes with
  | nil => exact reports_pure ()
  | cons node nodes ih =>
    obtain ⟨hnode, hnodes⟩ := List.forall_mem_cons.mp h
    rw [Visitor.visitList]
    exact reports_bind hnode fun _ => ih hnodes

theorem reports_visitSlots {slots : List (Slot Node)}
    (h : ∀ node ∈ slots.flatMap Slot.toList, Reports (table.recorder.visit node)) :
    Reports (table.recorder.visitSlots slots) := by
  induction slots with
  | nil => exact reports_pure ()
  | cons slot slots ih =>
    rw [List.flatMap_cons, List.forall_mem_append] at h
    rw [Visitor.visitSlots]
    refine reports_bind ?_ fun _ => ih h.2
    cases slot with
    | absent => exact reports_pure ()
    | one child => exact h.1 child (List.mem_singleton.mpr rfl)
    | many children => exact reports_visitList h.1

theorem reports_visit (h : ∀ node, (table.handler node).PassesOn) (node : Node) :
    Reports (table.recorder.visit node) := by
  induction node using Node.induct with
  | h node ih =>
    rw [Visitor.visit_eq]
    refine reports_bind (reports_failed _) fun _ => reports_ensuring ?_ (reports_failed _)
      (records_recorded _ _).append
    refine reports_handler (fun _ _ event hevent => by cases hevent) ?_ (h node) []
    rw [Visitor.visitChildren, checkLayout_again]
    exact reports_bind (reports_layout node) fun _ => reports_visitSlots ih

end Visits

section Edits

variable {table : Table σ Change (Option Change)}

/-- Where a child need not be there, its edit raises no fault. -/
theorem fault?_edited {parent : Node} {i : Nat} {kind : SlotKind}
    (hkind : parent.tag.layout[i]? = some kind) (hne : kind ≠ .required) (child : Node)
    (change : Option Change) : (Event.edited parent i child change).fault? = none := by
  cases change with
  | none =>
    have hnot : ¬parent.tag.layout[i]? = some .required := fun h =>
      hne (Option.some.inj (hkind.symm.trans h))
    simp only [Event.fault?, Event.deletion?, if_neg hnot, Option.map_none]
  | some change => rfl

theorem reports_recordList {nodes : List Node} (h : ∀ node ∈ nodes, Reports (table.record node))
    {parent : Node} {i : Nat} (hkind : parent.tag.layout[i]? = some .list) :
    Reports (table.recordList parent i nodes) := by
  induction nodes with
  | nil => exact reports_pure _
  | cons node nodes ih =>
    obtain ⟨hnode, hnodes⟩ := List.forall_mem_cons.mp h
    rw [recordList]
    refine reports_bind hnode fun change =>
      reports_bind (reports_note fun event hevent => ?_) fun _ =>
        reports_bind (ih hnodes) fun others => ?_
    · rw [List.mem_singleton.mp hevent]
      exact fault?_edited hkind (by decide) node change
    · rcases change with _ | (_ | _) <;> exact reports_pure _

theorem reports_recordSlot {slot : Slot Node} {kind : SlotKind}
    (h : ∀ node ∈ slot.toList, Reports (table.record node)) {parent : Node} {i : Nat}
    (hkind : parent.tag.layout[i]? = some kind) (hfits : slot.fits kind = true) :
    Reports (table.recordSlot parent i slot) := by
  cases slot with
  | absent => exact reports_pure _
  | one child =>
    rw [recordSlot]
    refine reports_bind (h child (List.mem_singleton.mpr rfl)) fun change => ?_
    by_cases hrequired : kind = .required ∧ change = none
    · -- the note of the deletion names the fault that is thrown right after it
      obtain ⟨rfl, rfl⟩ := hrequired
      intro r hr
      have hrun : ((do
          note [.edited parent i child none]
          if parent.tag.layout[i]? = some .optional then return (Slot.absent, true)
          else throw (.deletedChild parent.tag parent.mark.id i)) :
            Walk (Recorded σ) (Slot Node × Bool)) r =
          (.error (.deletedChild parent.tag parent.mark.id i),
            { r with events := r.events ++ [.edited parent i child none] }) := by
        rw [hkind]
        rfl
      have hfault : (Event.edited parent i child none).fault? =
          some (.deletedChild parent.tag parent.mark.id i) := by
        simp only [Event.fault?, Event.deletion?, hkind, if_true, Option.map_some]
      have hevents : r.events.filterMap Event.fault? = [] := hr
      dsimp only at hrun ⊢
      rw [hrun, Recorded.faults, List.filterMap_append, hevents]
      simp [Fault.of?, hfault]
    · refine reports_bind (reports_note fun event hevent => ?_) fun _ => ?_
      · rw [List.mem_singleton.mp hevent]
        rcases change with _ | change
        · exact fault?_edited hkind (fun heq => hrequired ⟨heq, rfl⟩) child none
        · rfl
      · rcases change with _ | (_ | _)
        · have hoptional : kind = .optional := by
            cases kind with
            | required => exact absurd ⟨rfl, rfl⟩ hrequired
            | optional => rfl
            | list => cases hfits
          rw [hkind, hoptional]
          exact reports_pure _
        · exact reports_pure _
        · exact reports_pure _
  | many children =>
    have hlist : kind = .list := by
      cases kind with
      | list => rfl
      | required => cases hfits
      | optional => cases hfits
    rw [recordSlot]
    exact reports_bind (reports_recordList h (hlist ▸ hkind)) fun _ => reports_pure _

theorem reports_recordSlots {slots : List (Slot Node)}
    (h : ∀ node ∈ slots.flatMap Slot.toList, Reports (table.record node)) {parent : Node} {i : Nat}
    (hfits : Slot.fitAll slots (parent.tag.layout.drop i) = true) :
    Reports (table.recordSlots parent i slots) := by
  induction slots generalizing i with
  | nil => exact reports_pure _
  | cons slot slots ih =>
    rw [List.flatMap_cons, List.forall_mem_append] at h
    obtain ⟨kind, hkind, -, hfirst, hrest⟩ := Slot.fitAll_drop hfits
    rw [recordSlots]
    exact reports_bind (reports_recordSlot h.1 hkind hfirst) fun _ =>
      reports_bind (ih h.2 hrest) fun _ => reports_pure _

theorem reports_recordChildren {node : Node}
    (h : ∀ child ∈ node.children, Reports (table.record child)) :
    Reports (table.recordChildren node) := by
  cases hfits : node.fitsLayout with
  | true =>
    exact reports_bind (reports_layout node) fun _ =>
      reports_bind (reports_recordSlots h hfits) fun _ => reports_pure _
  | false =>
    intro r hr
    have hlayout := reports_layout node r hr
    have hrun := recorded_misshapen (fun _ => Event.misshapen node) hfits r
    rw [hrun] at hlayout
    rw [recordChildren, run_bind_error hrun]
    exact hlayout

theorem reports_edit (h : ∀ node, (table.handler node).PassesOn) (node : Node) :
    Reports (table.record node) := by
  induction node using Node.induct with
  | h node ih =>
    rw [record_eq]
    refine reports_bind (reports_failed _) fun _ => reports_ensuring ?_ (reports_failed _)
      (records_recorded _ _).append
    refine reports_handler (fun made change event hevent => ?_) (reports_recordChildren ih)
      (h node) []
    rw [List.mem_singleton.mp hevent]
    rfl

end Edits

end Table

end GlslShrink
