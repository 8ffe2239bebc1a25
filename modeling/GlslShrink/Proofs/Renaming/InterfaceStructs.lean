import GlslShrink.Proofs.Analysis.Reachability
import GlslShrink.Proofs.Renaming.CaptureFree
import Mathlib.Data.List.Induction

/-!
The structures of the interface. A type is exposed if it is the type of an interface global, a member
of an exposed structure, or a definition of an exposed name (`Exposed`). The census follows names
only, and of several definitions of a name the last one (`Followed`): it finds exactly the
structures that can be reached so, all of them exposed. If exposed structures are named, and those
of the same name have members of the same types, it finds all exposed ones. The renaming that spares
the interface keeps the names that the census finds (`interfaceStructs_followed`).
-/

set_option autoImplicit false

namespace GlslShrink

namespace Node

/-- Whether the node is a definition of the structure. -/
def definesStruct (name : String) (node : Node) : Bool :=
  node.tag == .structDefinition && node.value == name && name != ""

/-- The last definition of a structure in a tree. -/
def lastDefinition? (root : Node) (name : String) : Option Node :=
  (root.preorder.filter (definesStruct name)).getLast?

/-- The node is the type of an interface global. -/
def InterfaceType (root type : Node) : Prop :=
  ∃ node, (0, node) ∈ root.sites 0 ∧ Census.declaresInterface (0, node) = true ∧
    node.child? 0 = some type

/-- The node is the type of a member of the structure. -/
def MemberType (struct type : Node) : Prop :=
  ∃ member ∈ struct.list 0, member.child? 0 = some type

/-- The type belongs to the type of an interface global, through definitions of names and through
members to any depth. -/
inductive Exposed (root : Node) : Node → Prop
  | global {type : Node} : InterfaceType root type → Exposed root type
  | member {struct type : Node} : Exposed root struct → struct.tag = .structDefinition →
      MemberType struct type → Exposed root type
  | definition {type struct : Node} : Exposed root type → struct ∈ root.preorder →
      struct.definesStruct type.value = true → Exposed root struct

/-- The name can be reached from the type of an interface global through the members of the last
definition of every name on the way. -/
inductive Followed (root : Node) : String → Prop
  | global {type : Node} : InterfaceType root type → Followed root type.value
  | member {name : String} {struct type : Node} : Followed root name →
      root.lastDefinition? name = some struct → MemberType struct type → Followed root type.value

/-- Exposed structures are told apart by their names: all have one, and those of the same name have
members of the same types. -/
structure NamedApart (root : Node) : Prop where
  named : ∀ {struct}, Exposed root struct → struct.tag = .structDefinition → struct.value ≠ ""
  agree : ∀ {struct other}, Exposed root struct → Exposed root other →
    struct.tag = .structDefinition → other.tag = .structDefinition → struct.value = other.value →
      Census.memberTypesOf struct ⊆ Census.memberTypesOf other

section Exposed

variable {root struct type : Node} {name : String}

theorem definesStruct_iff : struct.definesStruct name = true ↔
    struct.tag = .structDefinition ∧ struct.value = name ∧ name ≠ "" := by
  simp [definesStruct, and_assoc]

theorem mem_memberTypesOf : name ∈ Census.memberTypesOf struct ↔
    ∃ type, MemberType struct type ∧ type.value = name := by
  simp only [Census.memberTypesOf, NameSet.mem_ofList, List.mem_map, List.mem_filterMap, MemberType]

theorem lastDefinition?_some (h : root.lastDefinition? name = some struct) :
    struct ∈ root.preorder ∧ struct.definesStruct name = true :=
  List.mem_filter.mp (List.mem_of_getLast? h)

theorem exists_lastDefinition? (hstruct : struct ∈ root.preorder)
    (hdefines : struct.definesStruct name = true) :
    ∃ other, root.lastDefinition? name = some other := by
  rw [← Option.isSome_iff_exists, lastDefinition?, List.getLast?_isSome]
  exact List.ne_nil_of_mem (List.mem_filter.mpr ⟨hstruct, hdefines⟩)

theorem Exposed.mem_preorder (h : Exposed root type) : type ∈ root.preorder := by
  induction h with
  | global htype =>
    obtain ⟨node, hsite, -, hchild⟩ := htype
    exact mem_preorder_of_site (site_of_child_site hsite (mem_children_of_child? hchild))
  | member _ _ hmember ih =>
    obtain ⟨member, hmem, hchild⟩ := hmember
    exact mem_preorder_of_child (mem_preorder_of_child ih (mem_children_of_mem_list hmem))
      (mem_children_of_child? hchild)
  | definition _ hmem _ _ => exact hmem

theorem exposed_of_mem_list (htag : root.tag = .shader) {node : Node} (hnode : node ∈ root.list 0)
    (hdeclares : Census.declaresInterface (0, node) = true) (hchild : node.child? 0 = some type) :
    Exposed root type := by
  have hsite := site_of_child_site (site_self root 0) (mem_children_of_mem_list hnode)
  rw [innerDepth, htag, if_neg (by decide)] at hsite
  exact .global ⟨node, hsite, hdeclares, hchild⟩

/-- What is followed is exposed. -/
theorem Followed.exposed (h : Followed root name) : ∃ type, Exposed root type ∧ type.value = name := by
  induction h with
  | global htype => exact ⟨_, .global htype, rfl⟩
  | member _ hlast hmember ih =>
    obtain ⟨type, htype, rfl⟩ := ih
    obtain ⟨hmem, hdefines⟩ := lastDefinition?_some hlast
    have hstruct := htype.definition hmem hdefines
    exact ⟨_, hstruct.member (definesStruct_iff.mp hdefines).1 hmember, rfl⟩

/-- If exposed structures are told apart by their names, what is exposed is followed. -/
theorem NamedApart.followed (hroot : NamedApart root) (h : Exposed root type) :
    Followed root type.value := by
  induction h with
  | global htype => exact .global htype
  | @member struct type hexposed htag hmember ih =>
    have hdefines : struct.definesStruct struct.value = true :=
      definesStruct_iff.mpr ⟨htag, rfl, hroot.named hexposed htag⟩
    obtain ⟨last, hlast⟩ := exists_lastDefinition? hexposed.mem_preorder hdefines
    obtain ⟨hmem, hdefines'⟩ := lastDefinition?_some hlast
    obtain ⟨htag', hvalue, -⟩ := definesStruct_iff.mp hdefines'
    -- The last definition of the name has a member of the same type.
    have hagree := hroot.agree hexposed (hexposed.definition hmem hdefines') htag htag' hvalue.symm
    obtain ⟨other, hother, heq⟩ := mem_memberTypesOf.mp
      (hagree (mem_memberTypesOf.mpr ⟨type, hmember, rfl⟩))
    exact heq ▸ Followed.member ih hlast hother
  | @definition type struct _ _ hdefines ih => exact (definesStruct_iff.mp hdefines).2.1 ▸ ih

/-- Whether all structures of a tree, exposed or not, are told apart by their names. -/
def structsNamedApart (root : Node) : Bool :=
  let structs := root.preorder.filter (·.tag == .structDefinition)
  structs.all fun struct => struct.value != "" && structs.all fun other =>
    struct.value != other.value ||
      (Census.memberTypesOf struct).all (Census.memberTypesOf other).contains

theorem namedApart_of_structs (h : structsNamedApart root = true) : NamedApart root := by
  have hstruct : ∀ {struct}, Exposed root struct → struct.tag = .structDefinition →
      struct ∈ root.preorder.filter (·.tag == .structDefinition) := fun hexposed htag =>
    List.mem_filter.mpr ⟨hexposed.mem_preorder, beq_iff_eq.mpr htag⟩
  simp only [structsNamedApart, List.all_eq_true, Bool.and_eq_true, Bool.or_eq_true, bne_iff_ne,
    List.contains_iff_mem] at h
  refine ⟨fun hexposed htag => (h _ (hstruct hexposed htag)).1, ?_⟩
  intro struct other hexposed hexposed' htag htag' hvalue name hname
  have hagree := (h _ (hstruct hexposed htag)).2 _ (hstruct hexposed' htag')
  exact hagree.resolve_left (not_not_intro hvalue) name hname

end Exposed

end Node

namespace Census

open Node

variable {root : Node} {census : Census} {name : String}

/-- After some sites, the member types of a name are those of its last definition among them. -/
theorem targets_foldl (sites : List (Nat × Node)) (name : String) :
    (sites.foldl noted {}).memberTypes.targets name =
      (((sites.map Prod.snd).filter (definesStruct name)).getLast?).elim [] memberTypesOf := by
  induction sites using List.reverseRecOn with
  | nil => rfl
  | append_singleton sites site ih =>
    rw [List.foldl_append, List.foldl_cons, List.foldl_nil, noted_eq, List.map_append,
      List.filter_append, List.map_singleton]
    by_cases hdefines : site.2.definesStruct name = true
    · obtain ⟨htag, rfl, hname⟩ := definesStruct_iff.mp hdefines
      rw [List.filter_singleton, hdefines, defined, if_pos ⟨htag, hname⟩]
      simp [Links.targets, NameMap.find?_insert]
    · rw [List.filter_singleton, Bool.eq_false_iff.mpr hdefines]
      simp only [cond_false, List.append_nil, ← ih, Links.targets, defined]
      split
      · rename_i hsite
        have hne : name ≠ site.2.value := by
          rintro rfl
          exact hdefines (definesStruct_iff.mpr ⟨hsite.1, rfl, hsite.2⟩)
        rw [List.foldl_cons, List.foldl_nil, NameMap.find?_insert, if_neg hne]
      · rfl

theorem targets_memberTypes (hroot : root.Grammatical) (h : ofNode root = .ok census)
    (name : String) :
    census.memberTypes.targets name = (root.lastDefinition? name).elim [] memberTypesOf := by
  rw [eq_foldl hroot h, targets_foldl, map_snd_sites, lastDefinition?]

theorem mem_interfaceTypes_iff (hroot : root.Grammatical) (h : ofNode root = .ok census) :
    name ∈ census.interfaceTypes ↔ ∃ type, InterfaceType root type ∧ type.value = name := by
  rw [mem_field_iff (fun census site => by rw [noted_eq]) rfl hroot h]
  constructor
  · rintro ⟨⟨depth, node⟩, hsite, hname⟩
    rw [exposedTypes, List.mem_ite_nil_right, List.mem_map] at hname
    obtain ⟨hdeclares, type, htype, rfl⟩ := hname
    obtain rfl : depth = 0 := by simp_all [declaresInterface]
    exact ⟨type, ⟨node, hsite, hdeclares, Option.mem_toList.mp htype⟩, rfl⟩
  · rintro ⟨type, ⟨node, hsite, hdeclares, hchild⟩, rfl⟩
    refine ⟨_, hsite, ?_⟩
    rw [exposedTypes, if_pos hdeclares, hchild]
    exact List.mem_singleton.mpr rfl

theorem leads_iff_followed (hroot : root.Grammatical) (h : ofNode root = .ok census) :
    (∃ start ∈ census.interfaceTypes, census.memberTypes.Leads start name) ↔
      Followed root name := by
  constructor
  · rintro ⟨start, hstart, hleads⟩
    obtain ⟨type, htype, rfl⟩ := (mem_interfaceTypes_iff hroot h).mp hstart
    induction hleads with
    | refl => exact .global htype
    | @tail middle name _ hlink ih =>
      rw [targets_memberTypes hroot h] at hlink
      cases hlast : root.lastDefinition? middle with
      | none =>
        rw [hlast] at hlink
        cases hlink
      | some struct =>
        rw [hlast] at hlink
        obtain ⟨type, hmember, rfl⟩ := mem_memberTypesOf.mp hlink
        exact ih.member hlast hmember
  · intro hfollowed
    induction hfollowed with
    | @global type htype =>
      exact ⟨_, (mem_interfaceTypes_iff hroot h).mpr ⟨type, htype, rfl⟩, .refl⟩
    | @member name struct type _ hlast hmember ih =>
      obtain ⟨start, hstart, hleads⟩ := ih
      refine ⟨start, hstart, hleads.tail ?_⟩
      rw [targets_memberTypes hroot h, hlast]
      exact mem_memberTypesOf.mpr ⟨type, hmember, rfl⟩

/-- The census finds exactly the structures that can be followed to. -/
theorem mem_interfaceStructs_iff (hroot : root.Grammatical) (h : ofNode root = .ok census) :
    name ∈ census.interfaceStructs ↔ name ∈ census.structs ∧ Followed root name := by
  rw [interfaceStructs, List.mem_filter, List.contains_iff_mem, Links.mem_reachable_iff,
    leads_iff_followed hroot h, and_comm]

end Census

section Sparing

open VariableNames

variable {census : Stage → Census} {program compiled : Program} {names : Stage → Generator}

/-- The renaming that spares the interface does not rename a structure of the interface of either
stage. -/
theorem find?_interfaceStruct (h : StagesRenamed false census program names compiled)
    {stage other : Stage} {name : String} (hname : name ∈ (census stage).interfaceStructs)
    (hstruct : name ∈ (census other).structs) : (names other).shortened.find? name = none := by
  cases hfind : (names other).shortened.find? name with
  | none => rfl
  | some short =>
    rcases (h.tree other).domain hfind with hvariable | hselected
    · exact absurd hstruct ((chosen_plan false census other).variableNames hvariable).2.1
    · refine absurd ?_ (not_interfaceStruct_of_struct hselected)
      cases stage with
      | vertex => exact NameSet.mem_union.mpr (Or.inl hname)
      | fragment => exact NameSet.mem_union.mpr (Or.inr hname)

/-- The structures of the interface and their names, for a program that was read. In each stage the
census finds exactly those that can be reached through the members of the last definition of every
name on the way. They are exposed; if exposed structures are told apart by their names, all exposed
ones are found. The renaming that spares the interface succeeds and leaves the names of those that
are found in one stage alone in every stage that defines them. -/
theorem interfaceStructs_followed
    (hread : ∀ stage, ∃ source, parse source stage.startRule = .ok (program.tree stage))
    (outputs : StepOutputs) :
    ∃ (census : Stage → Census) (names : Renaming) (compiled : Program),
      (∀ stage, Census.ofNode (program.tree stage) = .ok (census stage)) ∧
      (Steps.renameVariables false).perform outputs program =
        (.ok (some (.renamed names)), compiled) ∧
      ∀ stage,
        (∀ name, name ∈ (census stage).interfaceStructs ↔
          name ∈ (census stage).structs ∧ (program.tree stage).Followed name) ∧
        (∀ name ∈ (census stage).interfaceStructs,
          ∃ type, (program.tree stage).Exposed type ∧ type.value = name) ∧
        ((program.tree stage).NamedApart → ∀ type, (program.tree stage).Exposed type →
          type.value ∈ (census stage).structs → type.value ∈ (census stage).interfaceStructs) ∧
        (∀ name ∈ (census stage).interfaceStructs, ∀ other, name ∈ (census other).structs →
          (names.names other).find? name = none) ∧
        CaptureFree (census stage) (names.names stage) (program.tree stage)
          (compiled.tree stage) := by
  obtain ⟨hgrammar, census, hcensus⟩ := exists_census hread
  obtain ⟨names, compiled, hrun, hstages⟩ := renameVariables_run false hgrammar hcensus outputs
  have hfound : ∀ stage name, name ∈ (census stage).interfaceStructs ↔
      name ∈ (census stage).structs ∧ (program.tree stage).Followed name := fun stage name =>
    Census.mem_interfaceStructs_iff (hgrammar stage) (hcensus stage)
  refine ⟨census, _, compiled, hcensus, hrun, fun stage => ⟨hfound stage, ?_, ?_, ?_, ?_⟩⟩
  · intro name hname
    exact ((hfound stage name).mp hname).2.exposed
  · intro hnamed type hexposed hstruct
    exact (hfound stage _).mpr ⟨hstruct, hnamed.followed hexposed⟩
  · intro name hname other hstruct
    have hnone := find?_interfaceStruct hstages hname hstruct
    cases other with
    | vertex => exact hnone
    | fragment => exact hnone
  · have hfree := captureFree_of_sparing hstages hgrammar hcensus stage
    cases stage with
    | vertex => exact hfree
    | fragment => exact hfree

end Sparing

/-- A structure is part of the interface as the type of a member of one that is. -/
theorem interfaceStructs_followed_member :
    ∃ program,
      Program.read "struct A{float x;};struct S{A a;};uniform S s;struct T{float y;};void main(){T t;}"
        "struct A{float x;};void main(){A a;}" = .ok program ∧
      program.vertex.NamedApart ∧
      ∃ (census : Stage → Census) (names : Renaming) (compiled : Program),
        (∀ stage, Census.ofNode (program.tree stage) = .ok (census stage)) ∧
        (Steps.renameVariables false).perform {} program =
          (.ok (some (.renamed names)), compiled) ∧
        ∀ stage,
          (∀ name, name ∈ (census stage).interfaceStructs ↔
            name ∈ (census stage).structs ∧ (program.tree stage).Followed name) ∧
          (∀ name ∈ (census stage).interfaceStructs,
            ∃ type, (program.tree stage).Exposed type ∧ type.value = name) ∧
          ((program.tree stage).NamedApart → ∀ type, (program.tree stage).Exposed type →
            type.value ∈ (census stage).structs → type.value ∈ (census stage).interfaceStructs) ∧
          (∀ name ∈ (census stage).interfaceStructs, ∀ other, name ∈ (census other).structs →
            (names.names other).find? name = none) ∧
          CaptureFree (census stage) (names.names stage) (program.tree stage)
            (compiled.tree stage) := by
  have hok : (Program.read
      "struct A{float x;};struct S{A a;};uniform S s;struct T{float y;};void main(){T t;}"
      "struct A{float x;};void main(){A a;}").toOption.any
        (fun program => program.vertex.structsNamedApart) = true := by
    decide +kernel
  obtain ⟨program, hread, hnamed⟩ := exists_ok_of_any hok
  exact ⟨program, hread, Node.namedApart_of_structs hnamed,
    interfaceStructs_followed (Program.exists_source hread) {}⟩

/-- Exposed structures that the census does not find: the type of a member of an earlier definition
of a name, and that of a member of a structure without a name. -/
theorem not_mem_interfaceStructs_exposed :
    ∃ root census,
      parse ("struct A{float x;};struct B{float y;};struct S{A a;};uniform S s;" ++
        "uniform struct{B b;}u;void main(){struct S{float x;};}") .vertexShader = .ok root ∧
      Census.ofNode root = .ok census ∧
      ∀ name ∈ ["A", "B"], name ∈ census.structs ∧
        (∃ type, root.Exposed type ∧ type.value = name) ∧ name ∉ census.interfaceStructs := by
  have hok : (parse ("struct A{float x;};struct B{float y;};struct S{A a;};uniform S s;" ++
      "uniform struct{B b;}u;void main(){struct S{float x;};}") .vertexShader).toOption.any
        (fun root => root.tag == .shader &&
          (root.list 0).any (fun node => Census.declaresInterface (0, node) &&
            (node.child? 0).any (·.value == "S")) &&
          root.preorder.any (fun struct => struct.definesStruct "S" &&
            (Census.memberTypesOf struct).contains "A") &&
          (root.list 0).any (fun node => Census.declaresInterface (0, node) &&
            (node.child? 0).any (fun struct => struct.tag == .structDefinition &&
              (Census.memberTypesOf struct).contains "B")) &&
          (Census.ofNode root).toOption.any (fun census => ["A", "B"].all fun name =>
            census.structs.contains name && !census.interfaceStructs.contains name)) = true := by
    decide +kernel
  obtain ⟨root, hread, hroot⟩ := exists_ok_of_any hok
  rw [Bool.and_eq_true] at hroot
  obtain ⟨htypes, hcensus⟩ := hroot
  obtain ⟨census, hofNode, hnames⟩ := exists_ok_of_any hcensus
  simp only [Bool.and_eq_true, List.any_eq_true, Option.any_eq_true, beq_iff_eq,
    List.contains_iff_mem, Node.mem_memberTypesOf] at htypes
  obtain ⟨⟨⟨htag, node, hnode, hdeclares, type, htype, hvalue⟩, struct, hstruct, hdefines,
    first, hfirst, hfirstValue⟩, node', hnode', hdeclares', struct', htype', htag', second,
    hsecond, hsecondValue⟩ := htypes
  have hexposed : ∀ name ∈ ["A", "B"], ∃ type, root.Exposed type ∧ type.value = name := by
    refine List.forall_mem_cons.mpr ⟨?_, List.forall_mem_singleton.mpr ?_⟩
    · have hglobal := Node.exposed_of_mem_list htag hnode hdeclares htype
      have hdefinition := hglobal.definition hstruct (hvalue ▸ hdefines)
      exact ⟨first, hdefinition.member (Node.definesStruct_iff.mp hdefines).1 hfirst, hfirstValue⟩
    · have hglobal := Node.exposed_of_mem_list htag hnode' hdeclares' htype'
      exact ⟨second, hglobal.member htag' hsecond, hsecondValue⟩
  refine ⟨root, census, hread, hofNode, fun name hname => ?_⟩
  have hfound := List.all_eq_true.mp hnames name hname
  simp only [Bool.and_eq_true, Bool.not_eq_true', List.contains_iff_mem,
    ← Bool.not_eq_true] at hfound
  exact ⟨hfound.1, hexposed name hname, hfound.2⟩

end GlslShrink
