import GlslShrink.Pass.FunctionNames
import GlslShrink.Proofs.Analysis.Census
import GlslShrink.Proofs.Naming.Generator

/-!
Renaming as a change of labels. `relabel` replaces the value of every node by what a spelling makes
of it, given the number of structures around the node and its category; nothing else of the tree
changes. The renaming passes hand out short names while they walk, so a subtree is respelled before
all names are known: what becomes of it is its relabelling by the names known so far and by all
names handed out later (`Respelled`).
-/

set_option autoImplicit false

namespace GlslShrink

/-- The image of a name under a map, extended by the identity. -/
def NameMap.image (map : NameMap String) (name : String) : String :=
  (map.find? name).getD name

theorem NameMap.image_of_find? {map : NameMap String} {name short : String}
    (h : map.find? name = some short) : map.image name = short := by
  rw [image, h, Option.getD_some]

/-- Different names of the set have different images. -/
def NameMap.InjectiveOn (map : NameMap String) (names : NameSet) : Prop :=
  ∀ a ∈ names, ∀ b ∈ names, map.image a = map.image b → a = b

theorem NameMap.image_of_not_contains {map : NameMap String} {name : String}
    (h : map.find? name = none) : map.image name = name := by
  rw [image, h, Option.getD_none]

/-- The short names of symbols of a set are apart from all names of the set if and only if none of
them is a name of the set that is kept. -/
theorem Generator.Proper.injectiveOn_iff {names : Generator} (hproper : names.Proper)
    {set : NameSet} (hdomain : ∀ {name short}, names.shortened.find? name = some short → name ∈ set) :
    names.shortened.InjectiveOn set ↔
      ∀ name short, names.shortened.find? name = some short → short ∈ set →
        ∃ other, names.shortened.find? short = some other := by
  constructor
  · intro hinjective name short hfind hmem
    cases hshort : names.shortened.find? short with
    | some other => exact ⟨other, rfl⟩
    | none =>
      have himage : names.shortened.image name = names.shortened.image short := by
        rw [NameMap.image_of_find? hfind, NameMap.image_of_not_contains hshort]
      rw [hinjective name (hdomain hfind) short hmem himage, hshort] at hfind
      cases hfind
  · intro hkept a ha b hb himage
    cases hfinda : names.shortened.find? a with
    | some short =>
      rw [NameMap.image_of_find? hfinda] at himage
      cases hfindb : names.shortened.find? b with
      | some short' =>
        rw [NameMap.image_of_find? hfindb] at himage
        exact hproper.injective hfinda (himage ▸ hfindb)
      | none =>
        rw [NameMap.image_of_not_contains hfindb] at himage
        obtain ⟨other, hother⟩ := hkept a b (himage ▸ hfinda) hb
        cases hfindb.symm.trans hother
    | none =>
      rw [NameMap.image_of_not_contains hfinda] at himage
      cases hfindb : names.shortened.find? b with
      | some short =>
        rw [NameMap.image_of_find? hfindb] at himage
        obtain ⟨other, hother⟩ := hkept b a (himage ▸ hfindb) ha
        cases hfinda.symm.trans hother
      | none => rwa [NameMap.image_of_not_contains hfindb] at himage

/-- How the value of a node is spelled, given the number of structures around the node, its category
and the value. -/
abbrev Spelling : Type :=
  Nat → Tag → String → String

namespace Node

/-- The tree with all its values respelled. -/
def relabel (spelling : Spelling) : Node → Nat → Node :=
  fold fun node slots depth =>
    { node with
      value := spelling depth node.tag node.value
      slots := slots.map (Slot.map (fun below => below (node.innerDepth depth))) }

theorem relabel_eq (spelling : Spelling) (node : Node) (depth : Nat) :
    node.relabel spelling depth =
      { node with
        value := spelling depth node.tag node.value
        slots := node.slots.map
          (Slot.map (fun child => child.relabel spelling (node.innerDepth depth))) } := by
  have hslot : ∀ (slot : Slot Node) (inner : Nat),
      (slot.map (relabel spelling)).map (fun below => below inner) =
        slot.map (fun child => child.relabel spelling inner) := by
    intro slot inner
    cases slot with
    | absent => rfl
    | one child => rfl
    | many children => simp [Slot.map]
  rw [relabel, fold_eq, ← relabel]
  simp only [List.map_map, Function.comp_def, hslot]

@[simp]
theorem relabel_tag (spelling : Spelling) (node : Node) (depth : Nat) :
    (node.relabel spelling depth).tag = node.tag := by
  rw [relabel_eq]

/-- The second node is the first one with another value. -/
structure Renamed (old : Node) (value : String) (new : Node) : Prop where
  tag : new.tag = old.tag
  value : new.value = value
  qualifiers : new.qualifiers = old.qualifiers
  slots : new.slots = old.slots

theorem bare_of_over {spelling : Spelling} {depth : Nat} {node middle new : Node}
    (hover : node.Over
      (fun child new => new.bare = (child.relabel spelling (node.innerDepth depth)).bare) middle)
    (hnew : middle.Renamed (spelling depth node.tag node.value) new) :
    new.bare = (node.relabel spelling depth).bare := by
  rw [bare_eq, bare_eq, relabel_eq, hnew.tag, hnew.value, hnew.qualifiers, hnew.slots,
    map_bare_of_related hover.slots, hover.tag, hover.qualifiers]

end Node

theorem VariableNames.named_renamed (node : Node) (change : Change) (name : String) :
    (change.result node).Renamed name ((named node change name).result node) := by
  unfold named
  by_cases h : (change.result node).value = name
  · rw [if_pos h]
    exact ⟨rfl, h, rfl, rfl⟩
  · rw [if_neg h]
    exact ⟨rfl, rfl, rfl, rfl⟩

/-! ### Renaming on the way -/

/-- The second node is the first one respelled by the names handed out so far, and by all names
handed out later too. -/
def Respelled (spell : NameMap String → Spelling) (depth : Nat) (names : Generator)
    (node new : Node) : Prop :=
  ∀ names', names.Extends names' → new.bare = (node.relabel (spell names'.shortened) depth).bare

section Respelled

variable {spell : NameMap String → Spelling} {depth : Nat} {names : Generator} {node : Node}
  {change : Change}

theorem Respelled.mono {names' : Generator} {new : Node} (hgrows : names.Extends names')
    (h : Respelled spell depth names node new) : Respelled spell depth names' node new :=
  fun later hlater => h later (hgrows.trans hlater)

theorem respelled_kept
    (hover : node.Over (Respelled spell (node.innerDepth depth) names) (change.result node))
    (hspell : ∀ map, spell map depth node.tag node.value = node.value) :
    Respelled spell depth names node (change.result node) := by
  intro later hlater
  refine Node.bare_of_over
    ⟨hover.tag, hover.value, hover.qualifiers, hover.slots.imp fun _ _ hslot =>
      hslot.imp fun _ _ hchild => hchild later hlater⟩ ?_
  exact ⟨rfl, by rw [hspell, hover.value], rfl, rfl⟩

theorem respelled_named {nameFor : Nat → String} (hproper : names.Proper)
    (hnumbering : Numbering nameFor)
    (hover : node.Over (Respelled spell (node.innerDepth depth) names) (change.result node))
    (hspell : ∀ map, spell map depth node.tag node.value = map.image node.value) :
    Respelled spell depth (names.shortenBy nameFor node.value).2 node
      ((VariableNames.named node change (names.shortenBy nameFor node.value).1).result node) := by
  have hshort := hproper.shorten hnumbering node.value
  intro later hlater
  refine Node.bare_of_over
    ⟨hover.tag, hover.value, hover.qualifiers, hover.slots.imp fun _ _ hslot =>
      hslot.imp fun _ _ hchild => hchild later (hshort.grows.trans hlater)⟩ ?_
  rw [hspell, NameMap.image_of_find? (hlater.keeps hshort.found)]
  exact VariableNames.named_renamed node change _

end Respelled

end GlslShrink
