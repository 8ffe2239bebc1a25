import GlslShrink.Proofs.Pass.Braces
import GlslShrink.Proofs.Reading.Soundness
import GlslShrink.Proofs.Tree.Blocks

/-!
Removing braces changes neither what controls a statement nor what a name refers to. In an arm or a
body, which is a block anyway, a statement can stand for the braces around it and the other way
round (`Stands`). A block among statements can be dissolved if it declares nothing, for then all
names in sight after it were in sight before it. Both leave the outline of the tree and the walk
through it as they were (`Kept`), and so does the pass.
-/

set_option autoImplicit false

namespace GlslShrink.Braces

open Node Scan

variable {statement other inner node : Node} {hidden : Bool}

/-! ### Blocks -/

/-- A block holds a list, and what it holds declares nothing unless it is a declaration. -/
def Tidy (node : Node) : Prop :=
  node.tag = .scope → node.slots = [.many (node.list 0)] ∧
    ∀ inner ∈ node.list 0, inner.tag ≠ .declaration → ∀ hidden, Still hidden inner

theorem outline_scope (htag : node.tag = .scope) (hslots : node.slots = [.many (node.list 0)]) :
    node.outline =
      .new .scope node.value node.qualifiers [.many ((node.list 0).flatMap Node.erase)] := by
  have herase : ((node.list 0).map outline).flatMap dissolve =
      (node.list 0).flatMap Node.erase := by
    rw [List.flatMap_map]
    rfl
  rw [outline_eq, hslots, htag, ← herase]
  rfl

theorem erase_scope (htag : node.tag = .scope) (hslots : node.slots = [.many (node.list 0)]) :
    node.erase = (node.list 0).flatMap Node.erase := by
  rw [Node.erase, outline_scope htag hslots]
  rfl

theorem scan_scope (htag : node.tag = .scope) (hslots : node.slots = [.many (node.list 0)]) :
    node.scan hidden = block (inTurn ((node.list 0).map (scan hidden))) := by
  funext state
  have hplaces : node.scanPlaces hidden = inTurn ((node.list 0).map (scan hidden)) := by
    rw [scanPlaces, hslots, htag]
    rfl
  rw [scan_eq, hplaces, around, enter, visibleAfter, htag]
  rfl

theorem block_eq_of_visible {inside : Scan → Scan}
    (h : ∀ state, (inside state).visible = state.visible) : block inside = inside := by
  funext state
  rw [block, ← h state]

/-- A block that declares nothing counts for its statements. -/
theorem scan_dissolves (htidy : Tidy node) (h : dissolves node = true) :
    inTurn ((node.list 0).map (scan hidden)) = node.scan hidden := by
  obtain ⟨htag, hnone⟩ := dissolves_iff.mp h
  obtain ⟨hslots, hstill⟩ := htidy htag
  rw [scan_scope htag hslots, block_eq_of_visible]
  apply visible_inTurn_scan
  intro inner hinner
  exact hstill inner hinner (hnone inner hinner) hidden

/-! ### Arms and bodies -/

/-- One statement can stand for another as an arm or a body. -/
structure Stands (statement other : Node) : Prop where
  erase : other.erase = statement.erase
  block : ∀ hidden, block (other.scan hidden) = block (statement.scan hidden)
  tidy : other.Every Tidy

theorem stands_unwrapped (htidy : statement.Every Tidy) (h : unwrapped? statement = some inner) :
    Stands statement inner := by
  obtain ⟨htag, hcases⟩ := unwrapped?_cases h
  obtain ⟨hslots, -⟩ := htidy.root htag
  rcases hcases with ⟨hlist, rfl⟩ | hlist
  · refine ⟨?_, fun hidden => ?_, every_iff.mpr ⟨nofun, nofun⟩⟩
    · rw [erase_scope htag hslots, hlist]
      rfl
    · rw [scan_scope htag hslots, hlist]
      rfl
  · refine ⟨?_, fun hidden => ?_, htidy.child (mem_children_of_mem_list (i := 0) ?_)⟩
    · rw [erase_scope htag hslots, hlist, List.flatMap_singleton]
    · rw [scan_scope htag hslots, hlist]
      rfl
    · rw [hlist]
      exact List.mem_singleton.mpr rfl

theorem stands_scope (htidy : statement.Every Tidy)
    (hstill : statement.tag ≠ .declaration → ∀ hidden, Still hidden statement) :
    Stands statement (.scope [statement]) := by
  refine ⟨?_, fun hidden => ?_, every_iff.mpr ⟨fun _ => ⟨rfl, ?_⟩, ?_⟩⟩
  · rw [erase_scope rfl rfl]
    exact List.flatMap_singleton _ _
  · rw [scan_scope rfl rfl]
    rfl
  · exact List.forall_mem_singleton.mpr hstill
  · exact List.forall_mem_singleton.mpr htidy

theorem stands_trim (htidy : statement.Every Tidy) (h : (trim statement).replacement = some other) :
    Stands statement other := by
  unfold trim at h
  split at h
  · rename_i hinner
    cases h
    exact stands_unwrapped htidy hinner
  · cases h

theorem stands_trimBeforeElse (htidy : statement.Every Tidy)
    (hstill : statement.tag ≠ .declaration → ∀ hidden, Still hidden statement)
    (h : (trimBeforeElse statement).replacement = some other) : Stands statement other := by
  unfold trimBeforeElse at h
  split at h
  · split at h
    · cases h
    · cases h
      exact stands_scope htidy hstill
  · exact stands_trim htidy h

/-! ### Every node -/

/-- What becomes of a node. -/
structure Kept (old new : Node) : Prop where
  tag : new.tag = old.tag
  outline : new.outline = old.outline
  scan : ∀ hidden, new.scan hidden = old.scan hidden
  tidy : new.Every Tidy

variable {old current new : Node}

theorem Kept.still (h : Kept old new) (hgrammar : old.Grammatical)
    (hstatement : old.tag.isStatement = true) (hdeclaration : new.tag ≠ .declaration) :
    Still hidden new := by
  rw [Still, h.scan]
  exact still_statement hgrammar hstatement (h.tag ▸ hdeclaration)

theorem around_congr (htag : new.tag = old.tag) (hvalue : new.value = old.value) :
    around hidden new = around hidden old := by
  funext inside state
  simp only [around, enter, visibleAfter, htag, hvalue]

theorem tidy_of_over (hgrammar : old.Grammatical) (hover : old.Over Kept new) : Tidy new := by
  intro htag
  have htag' : old.tag = .scope := hover.tag ▸ htag
  have hlayout := (fitsGrammar_iff.mp hgrammar.root).1
  rw [fitsLayout, htag'] at hlayout
  constructor
  · apply Slot.eq_many_of_fitAll
    rwa [Slot.fitAll_of_related hover.slots]
  · intro inner hinner hdeclaration hidden
    obtain ⟨inner', hinner', hkept⟩ :=
      exists_of_forall₂ (List.Forall₂.flip (list_of_related hover.slots 0)) hinner
    exact Kept.still hkept (hgrammar.child (mem_children_of_mem_list hinner'))
      (tag_of_mem_list hgrammar.root (by rw [htag']; rfl) hinner') hdeclaration

/-- A node over children that were kept is kept. -/
theorem kept_of_over (hgrammar : old.Grammatical) (hover : old.Over Kept new) : Kept old new where
  tag := hover.tag
  outline := by
    have hslots := map_of_related
      (hover.slots.imp fun _ _ h => h.imp fun _ _ hkept => hkept.outline)
    rw [outline_eq, outline_eq old, hover.tag, hover.value, hover.qualifiers, hslots]
  scan hidden := by
    have hslots := map_of_related
      (hover.slots.imp fun _ _ h => h.imp fun _ _ hkept => hkept.scan hidden)
    rw [scan_eq, scan_eq hidden old, around_congr hover.tag hover.value, scanPlaces, scanPlaces,
      hover.tag, hslots]
  tidy := by
    refine every_iff.mpr ⟨tidy_of_over hgrammar hover, fun child hchild => ?_⟩
    obtain ⟨child', -, hkept⟩ := exists_of_forall₂ (List.Forall₂.flip hover.children) hchild
    exact hkept.tidy

theorem outline_withSlot {i : Nat} (hbody : current.tag.isBody i = true)
    (hchild : current.child? i = some statement) (h : other.erase = statement.erase) :
    (current.withSlot i (.one other)).outline = current.outline := by
  have hget : (current.slots.map (Slot.map outline))[i]? = some (.one statement.outline) := by
    rw [List.getElem?_map, child?_eq_some.mp hchild]
    rfl
  rw [outline_eq, outline_eq current]
  congr 1
  rw [withSlot, withSlots, List.map_set]
  refine mapIdx_set_of_eq hget ?_
  simp only [Slot.map, outlineSlot, hbody, if_true]
  exact congrArg Slot.many h

theorem scan_withSlot {i : Nat} (hbody : current.tag.isBody i = true)
    (hchild : current.child? i = some statement)
    (h : block (other.scan hidden) = block (statement.scan hidden)) :
    (current.withSlot i (.one other)).scan hidden = current.scan hidden := by
  have hget : (current.slots.map (Slot.map (scan hidden)))[i]? =
      some (.one (statement.scan hidden)) := by
    rw [List.getElem?_map, child?_eq_some.mp hchild]
    rfl
  have hplaces : (current.withSlot i (.one other)).scanPlaces hidden =
      current.scanPlaces hidden := by
    unfold scanPlaces
    congr 1
    rw [withSlot, withSlots, List.map_set]
    refine mapIdx_set_of_eq hget ?_
    simp only [Slot.map, place, hbody, if_true]
    exact h
  rw [scan_eq, hplaces, scan_eq hidden current]
  rfl

theorem kept_of_trimmed {how : Node → Trim} {i : Nat} (h : Trimmed how current i new)
    (hkept : Kept old current) (hbody : current.tag.isBody i = true) (hscope : current.tag ≠ .scope)
    (hhow : ∀ statement other, current.child? i = some statement →
      (how statement).replacement = some other → Stands statement other) : Kept old new := by
  cases h with
  | kept => exact hkept
  | @replaced statement other hchild hother =>
    have hstands := hhow statement other hchild hother
    constructor
    case tag => exact hkept.tag
    case outline => rw [outline_withSlot hbody hchild hstands.erase, hkept.outline]
    case scan =>
      intro hidden
      rw [scan_withSlot hbody hchild (hstands.block hidden), hkept.scan]
    case tidy =>
      refine every_iff.mpr ⟨fun htag => absurd htag hscope, fun child hmem => ?_⟩
      obtain ⟨slot, hslot, hinside⟩ := List.mem_flatMap.mp hmem
      rcases List.mem_or_eq_of_mem_set hslot with hslot | rfl
      · exact hkept.tidy.child (List.mem_flatMap.mpr ⟨slot, hslot, hinside⟩)
      · obtain rfl := List.mem_singleton.mp hinside
        exact hstands.tidy

theorem inTurn_flatMap {α : Type} {parts : α → List (Scan → Scan)} (items : List α) :
    inTurn (items.flatMap parts) = inTurn (items.map fun item => inTurn (parts item)) := by
  funext state
  unfold inTurn
  rw [List.foldl_flatMap, List.foldl_map]

theorem erase_spliced {statements : List Node} (htidy : ∀ node ∈ statements, Tidy node) :
    (spliced statements).flatMap Node.erase = statements.flatMap Node.erase := by
  rw [spliced, List.flatMap_assoc]
  apply List.flatMap_congr
  intro node hnode
  by_cases h : dissolves node = true
  · have htag : node.tag = .scope := (dissolves_iff.mp h).1
    rw [if_pos h, erase_scope htag (htidy node hnode htag).1]
  · rw [if_neg h, List.flatMap_singleton]

theorem scan_spliced {statements : List Node} (htidy : ∀ node ∈ statements, Tidy node) :
    inTurn ((spliced statements).map (scan hidden)) =
      inTurn (statements.map (scan hidden)) := by
  rw [spliced, List.map_flatMap, inTurn_flatMap]
  congr 1
  apply List.map_congr_left
  intro node hnode
  by_cases h : dissolves node = true
  · rw [if_pos h, scan_dissolves (htidy node hnode) h]
  · rw [if_neg h]
    rfl

theorem kept_of_spliced (hkept : Kept old current) (htag : current.tag = .scope)
    (hnew : new = current.withSlot 0 (.many (spliced (current.list 0)))) : Kept old new := by
  obtain ⟨hslots, hstill⟩ := hkept.tidy.root htag
  have hbelow : ∀ node ∈ current.list 0, node.Every Tidy := fun node hnode =>
    hkept.tidy.child (mem_children_of_mem_list hnode)
  have hroots : ∀ node ∈ current.list 0, Tidy node := fun node hnode => (hbelow node hnode).root
  have htag' : new.tag = .scope := by rw [hnew, withSlot, withSlots, htag]
  have hlist : new.list 0 = spliced (current.list 0) := by
    rw [hnew, list_withSlot]
    rw [hslots]
    exact Nat.one_pos
  have hslots' : new.slots = [.many (new.list 0)] := by
    rw [hlist, hnew, withSlot, withSlots, hslots]
    rfl
  -- What was inside a dissolved block was tidy there.
  have hinside : ∀ inner ∈ new.list 0, inner.Every Tidy ∧
      (inner.tag ≠ .declaration → ∀ hidden, Still hidden inner) := by
    intro inner hinner
    rw [hlist] at hinner
    obtain ⟨node, hnode, hmem⟩ := List.mem_flatMap.mp hinner
    by_cases h : dissolves node = true
    · rw [if_pos h] at hmem
      exact ⟨(hbelow node hnode).child (mem_children_of_mem_list hmem),
        (hroots node hnode (dissolves_iff.mp h).1).2 inner hmem⟩
    · rw [if_neg h] at hmem
      obtain rfl := List.mem_singleton.mp hmem
      exact ⟨hbelow inner hnode, hstill inner hnode⟩
  constructor
  case tag => rw [htag', ← hkept.tag, htag]
  case outline =>
    rw [outline_scope htag' hslots', hlist, erase_spliced hroots, ← hkept.outline,
      outline_scope htag hslots, hnew]
    rfl
  case scan =>
    intro hidden
    rw [scan_scope htag' hslots', hlist, scan_spliced hroots, ← hkept.scan, scan_scope htag hslots]
  case tidy =>
    refine every_iff.mpr ⟨fun _ => ⟨hslots', fun inner hinner => (hinside inner hinner).2⟩, ?_⟩
    intro child hchild
    rw [children, hslots', List.flatMap_singleton] at hchild
    exact (hinside child hchild).1

/-! ### The pass -/

theorem isBody_bodyPlace {tag : Tag} (h : tag = .forLoop ∨ tag = .whileLoop ∨ tag = .doWhileLoop) :
    tag.isBody (bodyPlace tag) = true ∧ tag ≠ .scope := by
  rcases h with rfl | rfl | rfl <;> decide

/-- An arm of an `if` leaves no names behind unless it is a declaration. -/
theorem still_arm (hif : old.tag = .ifStatement) (hgrammar : old.Grammatical)
    (hover : old.Over Kept current) (hchild : current.child? 1 = some statement)
    (hdeclaration : statement.tag ≠ .declaration) : Still hidden statement := by
  have hrel := child?_of_related hover.slots 1
  rw [hchild] at hrel
  cases hold : old.child? 1 with
  | none =>
    rw [hold] at hrel
    cases hrel
  | some statement' =>
    rw [hold] at hrel
    obtain ⟨hkept⟩ := hrel
    exact hkept.still (hgrammar.child (mem_children_of_child? hold))
      (tag_of_child? hgrammar.root (by rw [hif]; rfl) hold) hdeclaration

theorem kept_of_edited (hgrammar : old.Grammatical) (hover : old.Over Kept current)
    (h : Edited old.tag current new) : Kept old new := by
  have hkept := kept_of_over hgrammar hover
  have htidy : ∀ {i statement}, current.child? i = some statement → statement.Every Tidy :=
    fun hchild => hkept.tidy.child (mem_children_of_child? hchild)
  cases h with
  | body htag htrimmed =>
    obtain ⟨hbody, hscope⟩ := isBody_bodyPlace htag
    rw [← hover.tag] at hbody hscope
    rw [← hover.tag] at htrimmed
    exact kept_of_trimmed htrimmed hkept hbody hscope fun _ _ hchild hother =>
      stands_trim (htidy hchild) hother
  | @arms middle htag hfirst hsecond =>
    have hif : current.tag = .ifStatement := hover.tag.trans htag
    have hif' : middle.tag = .ifStatement := hfirst.tag.trans hif
    have hmiddle : Kept old middle := by
      apply kept_of_trimmed hfirst hkept (by rw [hif]; rfl) (by rw [hif]; decide)
      intro statement other hchild hother
      by_cases helse : (current.child? 2).isSome = true
      · rw [if_pos helse] at hother
        exact stands_trimBeforeElse (htidy hchild)
          (fun hdeclaration hidden => still_arm htag hgrammar hover hchild hdeclaration) hother
      · rw [if_neg helse] at hother
        exact stands_trim (htidy hchild) hother
    apply kept_of_trimmed hsecond hmiddle (by rw [hif']; rfl) (by rw [hif']; decide)
    intro statement other hchild hother
    exact stands_trim (hmiddle.tidy.child (mem_children_of_child? hchild)) hother
  | block htag hspliced =>
    cases hspliced with
    | kept => exact hkept
    | dissolved => exact kept_of_spliced hkept (hover.tag.trans htag) rfl
  | same _ _ _ hsame =>
    rw [hsame]
    exact hkept

theorem keepsMeaning : editor.Law (fun node => node.fitsGrammar = true) (fun (_ : Unit) _ => ())
    (fun _ _ => True) (fun _ _ => True) (fun _ _ => Kept) := by
  refine .ofLocal (fun h => (fitsGrammar_iff.mp h).1) (fun _ => rfl) (fun _ => rfl)
    fun {node _ _ _ _} hgrammar hdescend hover => ?_
  obtain ⟨change', count, hrun, hedited⟩ := editing_run node hdescend
  exact ⟨change', count, hrun, kept_of_edited hgrammar hover hedited⟩

/-- Removing braces from what was read succeeds and keeps the statements with all that controls
them, and all identifiers with what they refer to, both counted in preorder. -/
theorem reduce_keepsMeaning {source : String} {rule : StartRule} {tree : Node}
    (hread : parse source rule = .ok tree) :
    ∃ change count, reduce tree = .ok (change, count) ∧
      (change.result tree).erase = tree.erase ∧
      ∀ hidden, (change.result tree).occurrences hidden = tree.occurrences hidden ∧
        (change.result tree).CountsInPreorder hidden ∧ tree.CountsInPreorder hidden := by
  have hgrammar : tree.Grammatical := (parse_formed hread).sound.imp fun _ h => h.1
  obtain ⟨change, count, hrun, -, -, hkept⟩ :=
    keepsMeaning.apply (k := ()) (s := 0) hgrammar trivial
  refine ⟨change, count, hrun, ?_, fun hidden => ?_⟩
  · rw [Node.erase, hkept.outline, Node.erase]
  · have hsame : (change.result tree).occurrences hidden = tree.occurrences hidden := by
      rw [occurrences, hkept.scan, occurrences]
    exact ⟨hsame, countsInPreorder hidden _, countsInPreorder hidden tree⟩

/-- An inner variable, the one it is initialised from and the same name in the other branch. -/
theorem reduce_keepsMeaning_shadowed :
    ∃ tree, parse "void f(){int a;if(a>0){if(a>1){int a=a;{a;}}}else{{a;}}}" .shader = .ok tree ∧
      tree.occurrences true =
        [("a", some 0), ("a", some 0), ("a", some 0), ("a", some 1), ("a", some 0)] ∧
      ∃ change count, reduce tree = .ok (change, count) ∧
        (change.result tree).erase = tree.erase ∧
        ∀ hidden, (change.result tree).occurrences hidden = tree.occurrences hidden ∧
          (change.result tree).CountsInPreorder hidden ∧ tree.CountsInPreorder hidden := by
  have hok : (parse "void f(){int a;if(a>0){if(a>1){int a=a;{a;}}}else{{a;}}}" .shader).toOption.any
      (fun tree => tree.occurrences true ==
        [("a", some 0), ("a", some 0), ("a", some 0), ("a", some 1), ("a", some 0)]) = true := by
    decide +kernel
  obtain ⟨tree, hread, hfound⟩ := exists_ok_of_any hok
  exact ⟨tree, hread, beq_iff_eq.mp hfound, reduce_keepsMeaning hread⟩

end GlslShrink.Braces
