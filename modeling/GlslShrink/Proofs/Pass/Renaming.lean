import GlslShrink.Proofs.Printing.Alike
import GlslShrink.Proofs.Renaming.CaptureFree
import GlslShrink.Proofs.Renaming.Functions

/-!
Renaming keeps shaders printable. A spelling that gives names to nodes that carry names, and never
the word `void`, respells a printable tree as a printable one (`stays_relabel`). The short
names handed out are neither structural keywords nor `void`, so this holds of the renaming of
variables and of the renaming of functions.
-/

set_option autoImplicit false

namespace GlslShrink

/-- Whether the value of a node of this category is the name of a symbol or a type. -/
def Tag.isNamed : Tag → Bool
  | typeName | declarator | functionPrototype | functionDefinition | call | identifier
  | structDefinition | parameter => true
  | _ => false

/-- The spelling changes only names, into other names, and never into `void`. -/
def Spelling.Proper (spelling : Spelling) : Prop :=
  ∀ depth tag value, spelling depth tag value = value ∨
    tag.isNamed = true ∧ Word.isName (spelling depth tag value) = true ∧
      spelling depth tag value ≠ "void"

theorem Word.ne_empty_of_isName {text : String} (h : Word.isName text = true) : text ≠ "" := by
  rintro rfl
  cases h

theorem Tag.allowsValue_of_isName {tag : Tag} (htag : tag.isNamed = true) {value : String}
    (hvalue : Word.isName value = true) : tag.allowsValue value = true := by
  cases tag <;> simp_all [isNamed, allowsValue]

theorem Precedence.ofTag_of_isNamed {tag : Tag} (htag : tag.isNamed = true) (a b : String) :
    ofTag tag a = ofTag tag b := by
  cases tag <;> simp_all [Tag.isNamed, ofTag]

namespace Node

variable {spelling : Spelling} {strict : Bool}

theorem related_map_slot {R : Node → Node → Prop} {f : Node → Node} {slot : Slot Node}
    (h : ∀ child ∈ slot.toList, R child (f child)) : slot.Related R (slot.map f) := by
  cases slot with
  | absent => exact .absent
  | one child => exact .one (h child (List.mem_singleton.mpr rfl))
  | many children =>
    exact .many (List.forall₂_map_right_iff.mpr (List.forall₂_same.mpr h))

theorem forall₂_map_slots {R : Node → Node → Prop} {f : Node → Node} {slots : List (Slot Node)}
    (h : ∀ child ∈ slots.flatMap Slot.toList, R child (f child)) :
    List.Forall₂ (Slot.Related R) slots (slots.map (Slot.map f)) :=
  List.forall₂_map_right_iff.mpr (List.forall₂_same.mpr fun slot hslot =>
    related_map_slot fun child hchild => h child (List.mem_flatMap.mpr ⟨slot, hslot, hchild⟩))

theorem steady_relabel (hspelling : spelling.Proper) (node : Node) (depth : Nat) :
    node.Steady (node.relabel spelling depth) := by
  induction node using Node.induct generalizing depth with
  | h node ih =>
    have hslots := forall₂_map_slots fun child hchild => ih child hchild (node.innerDepth depth)
    have hvalue := hspelling depth node.tag node.value
    rw [relabel_eq]
    refine ⟨alike_of_slots rfl rfl ?_ ?_ ?_ (alike_of_steady hslots),
      endsWithOpenIf_of_steady rfl hslots⟩
    · rcases hvalue with hsame | ⟨hnamed, -⟩
      · rw [Precedence.ofNode, Precedence.ofNode, hsame]
      · exact Precedence.ofTag_of_isNamed hnamed _ _
    · intro hvoid
      rcases hvalue with hsame | ⟨-, -, hother⟩
      · rwa [← hsame]
      · exact absurd hvoid hother
    · intro hempty
      rcases hvalue with hsame | ⟨-, hname, -⟩
      · rwa [← hsame]
      · exact absurd hempty (Word.ne_empty_of_isName hname)

theorem every_checked_relabel (hspelling : spelling.Proper) {node : Node}
    (h : node.Every (Checked strict)) (depth : Nat) :
    (node.relabel spelling depth).Every (Checked strict) := by
  induction node using Node.induct generalizing depth with
  | h node ih =>
    have hsteady := fun child => steady_relabel hspelling child (node.innerDepth depth)
    rw [relabel_eq, every_iff]
    refine ⟨checked_of_steady h.root rfl rfl ?_
      (forall₂_map_slots fun child _ => hsteady child), ?_⟩
    · rcases hspelling depth node.tag node.value with hsame | ⟨hnamed, hname, -⟩
      · simp only [hsame]
        exact (fitsGrammar_iff.mp h.root.1).2.2.1
      · exact Tag.allowsValue_of_isName hnamed hname
    · intro child hchild
      rw [children, flatMap_toList_map] at hchild
      obtain ⟨old, hold, rfl⟩ := List.mem_map.mp hchild
      exact ih old hold (h.child hold) _

theorem stays_relabel (hspelling : spelling.Proper) {root : Node}
    (h : root.Every (Checked strict)) (depth : Nat) :
    root.Stays strict (root.relabel spelling depth) where
  tag := relabel_tag spelling root depth
  checked := every_checked_relabel hspelling h depth
  topLevel node hnode := by
    rw [relabel_eq, list, Slot.listAt_map] at hnode
    obtain ⟨old, hold, rfl⟩ := List.mem_map.mp hnode
    have hsteady := steady_relabel hspelling old (root.innerDepth depth)
    exact ⟨old, hold, hsteady.tag, hsteady.qualifiers⟩

end Node

/-! ### Short names are names -/

theorem Word.isName_of_not_reserved {text : String} (hreserved : Word.isReserved text = false)
    (hword : Word.isWord text = true) : Word.isName text = true ∧ text ≠ "void" := by
  have hlisted : text ∉ Word.reservedWords := by
    intro hmem
    rw [Word.isReserved, List.contains_iff_mem.mpr hmem, Bool.or_true] at hreserved
    cases hreserved
  have hkeywords : ∀ word ∈ Word.structuralKeywords, word ∈ Word.reservedWords :=
    forall_mem_of_all (by decide +kernel)
  have hvoid : "void" ∈ Word.reservedWords := by decide +kernel
  have hstructural : Word.isStructural text = false := by
    rw [Word.isStructural, ← Bool.not_eq_true, List.contains_iff_mem]
    exact fun hmem => hlisted (hkeywords text hmem)
  refine ⟨by rw [Word.isName, hword, hstructural]; rfl, ?_⟩
  rintro rfl
  exact hlisted hvoid

/-- All short names of the map are words that are not reserved. -/
def NameMap.Legal (map : NameMap String) : Prop :=
  ∀ name short, map.find? name = some short →
    Word.isReserved short = false ∧ Word.isWord short = true

theorem NameMap.Legal.image {map : NameMap String} (h : map.Legal) (name : String) :
    map.image name = name ∨ Word.isName (map.image name) = true ∧ map.image name ≠ "void" := by
  cases hfind : map.find? name with
  | none => exact Or.inl (by rw [NameMap.image, hfind, Option.getD_none])
  | some short =>
    rw [NameMap.image_of_find? hfind]
    obtain ⟨hreserved, hword⟩ := h name short hfind
    exact Or.inr (Word.isName_of_not_reserved hreserved hword)

/-! ### The renaming of variables -/

namespace VariableNames

theorem spelling_proper {map : NameMap String} (hmap : map.Legal) (variableNames structs : NameSet) :
    (spelling variableNames structs map).Proper := by
  intro depth tag value
  have himage := hmap.image value
  unfold spelling
  split <;> (try split) <;> simp_all [Tag.isNamed]

variable {aggressive : Bool} {census : Stage → Census} {program compiled : Program}
  {names : Stage → Generator}

theorem StagesRenamed.legal_vertex (h : StagesRenamed aggressive census program names compiled) :
    (names .vertex).shortened.Legal := by
  intro name short hfind
  rcases (h.tree .vertex).grows.fresh hfind with hstart | ⟨-, hlegal⟩
  · exact absurd hstart find?_starting_vertex
  · exact hlegal

theorem StagesRenamed.legal (h : StagesRenamed aggressive census program names compiled)
    (stage : Stage) : (names stage).shortened.Legal := by
  intro name short hfind
  rcases (h.tree stage).grows.fresh hfind with hstart | ⟨-, hlegal⟩
  · have htaken := (find?_starting.mp hstart).2
    exact h.legal_vertex name short (takenOver_values (NameMap.mem_of_find? htaken))
  · exact hlegal

theorem stays_stages {strict : Bool} (h : StagesRenamed aggressive census program names compiled)
    (stage : Stage) (hchecked : (program.tree stage).Every (Node.Checked strict)) :
    (program.tree stage).Stays strict (compiled.tree stage) :=
  (Node.stays_relabel (spelling_proper (h.legal stage) _ _) hchecked 0).of_bare
    (h.tree stage).relabelled

theorem staysPrintable_stages (h : StagesRenamed aggressive census program names compiled)
    (stage : Stage) (hfits : (program.tree stage).Every Node.Fits) :
    (program.tree stage).StaysPrintable (compiled.tree stage) :=
  (stays_stages h stage (hfits.imp fun _ => Node.checked_true_iff.mpr)).printable

end VariableNames

/-! ### The renaming of functions -/

namespace FunctionNames

theorem spelling_proper {map : NameMap String} (hmap : map.Legal) (functions : NameSet) :
    (spelling functions map).Proper := by
  intro depth tag value
  have himage := hmap.image value
  unfold spelling
  split <;> (try split) <;> simp_all [Tag.isNamed]

/-- Renaming functions succeeds on every shader that passes the checks and keeps it so. -/
theorem runs_rename (strict : Bool) (start : Nat) : Node.Runs strict (rename start) := by
  intro root _ hroot
  have hgrammar : root.Grammatical := hroot.imp fun _ hnode => hnode.1
  obtain ⟨change, names, hrun, hgrows, -, -, hbare⟩ :=
    rename_spec hgrammar start (Census.ofNode_eq hgrammar.fitsLayout)
  have hlegal : names.shortened.Legal := by
    intro name short hfind
    rcases hgrows.fresh hfind with hstart | ⟨-, hlegal⟩
    · rw [generator_shortened] at hstart
      cases hstart
    · exact hlegal
  exact ⟨change, names, hrun,
    (Node.stays_relabel (spelling_proper hlegal _) hroot 0).of_bare hbare⟩

/-- Renaming functions keeps printable shaders printable. -/
theorem keepsPrintable_rename (start : Nat) : Node.KeepsPrintable (rename start) :=
  (runs_rename true start).keepsPrintable

end FunctionNames

end GlslShrink
