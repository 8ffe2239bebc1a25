import GlslShrink.Pipeline.Compile
import GlslShrink.Proofs.Reading.Soundness
import GlslShrink.Proofs.Renaming.Variables

/-!
The renaming of variables in both stages. The names selected in a stage are variables or structures
of its census and nothing else (`Chosen`), so that the spelling of a node follows from the census
and the map of the stage. The map is injective on the names of the stage unless a short name taken
over from the other stage is the spelling of a name that this stage keeps (`injective_iff`).
-/

set_option autoImplicit false

namespace GlslShrink

/-! ### Names taken over from the other stage -/

namespace VariableNames

variable {names : Generator}

theorem mem_exports {census : Census} {interfaceStructs : NameSet} {entry : String × String}
    (h : entry ∈ exports census interfaceStructs names) :
    entry.1 ∈ census.interface ++ interfaceStructs ∧
      names.shortened.find? entry.1 = some entry.2 := by
  let Kept (map : NameMap String) : Prop := entry ∈ map →
    entry.1 ∈ census.interface ++ interfaceStructs ∧ names.shortened.find? entry.1 = some entry.2
  refine List.foldlRecOn (motive := Kept) (census.interface ++ interfaceStructs) _
    (fun hentry => absurd hentry List.not_mem_nil) (fun exported ih name hname => ?_) h
  cases hfind : names.shortened.find? name with
  | none => exact ih
  | some short =>
    intro hentry
    rcases NameMap.mem_insert hentry with rfl | hentry
    · exact ⟨hname, hfind⟩
    · exact ih hentry

theorem find?_exports {census : Census} {interfaceStructs : NameSet} {name short : String}
    (hname : name ∈ census.interface ++ interfaceStructs)
    (hfind : names.shortened.find? name = some short) :
    (exports census interfaceStructs names).find? name = some short := by
  obtain ⟨earlier, later, hsplit⟩ := List.append_of_mem hname
  rw [exports, hsplit, List.foldl_append, List.foldl_cons]
  refine List.foldlRecOn (motive := fun map => NameMap.find? map name = some short) later _ ?_
    fun exported ih other _ => ?_
  · simp only [hfind]
    rw [NameMap.find?_insert, if_pos rfl]
  · cases hother : names.shortened.find? other with
    | none => exact ih
    | some short' =>
      simp only
      rw [NameMap.find?_insert]
      by_cases heq : name = other
      · rw [if_pos heq, ← hother, ← heq, hfind]
      · rw [if_neg heq, ih]

/-! ### The generator of a stage -/

section Generator

variable {selection : Selection} {start : Nat} {taken : NameMap String} {vertex fragment : Census}

theorem contains_renamed_iff {name : String} :
    (selection.variableNames.union selection.structs).contains name = true ↔
      selection.Has name := by
  rw [List.contains_iff_mem, NameSet.mem_union, Selection.Has]

/-- The names taken over from the other stage that a stage selects. -/
def Selection.takes (selection : Selection) (taken : NameMap String) : NameMap String :=
  taken.filter fun entry => (selection.variableNames.union selection.structs).contains entry.1

theorem find?_takes {name short : String} :
    (selection.takes taken).find? name = some short ↔
      selection.Has name ∧ taken.find? name = some short := by
  rw [Selection.takes, NameMap.find?_filter]
  by_cases hname : selection.Has name
  · rw [if_pos (contains_renamed_iff.mpr hname)]
    exact ⟨fun h => ⟨hname, h⟩, fun h => h.2⟩
  · rw [if_neg (mt contains_renamed_iff.mp hname)]
    exact ⟨nofun, fun h => absurd h.1 hname⟩

theorem generator_eq :
    generator selection start taken vertex fragment =
      (((selection.takes taken).foldl (fun names entry => names.assign entry.1 entry.2)
        (Generator.startingAt start)).reserveAll (vertex.keptNames
          (selection.variableNames.union selection.structs))).reserveAll
        (fragment.keptNames (selection.variableNames.union selection.structs)) :=
  rfl

theorem generator_nextIndex :
    (generator selection start taken vertex fragment).nextIndex = start := by
  rw [generator_eq, Generator.reserveAll_nextIndex, Generator.reserveAll_nextIndex,
    Generator.assignAll_nextIndex, Generator.startingAt]

/-- A stage starts with the names taken over from the other stage that it selects. -/
theorem find?_generator {values : NameMap String}
    (hvalues : ∀ entry ∈ taken, values.find? entry.1 = some entry.2) {name short : String} :
    (generator selection start taken vertex fragment).shortened.find? name = some short ↔
      selection.Has name ∧ taken.find? name = some short := by
  have htakes : ∀ entry ∈ selection.takes taken, values.find? entry.1 = some entry.2 :=
    fun entry hentry => hvalues entry (List.mem_filter.mp hentry).1
  have hnone : (Generator.startingAt start).shortened.find? name = none := rfl
  rw [generator_eq, Generator.reserveAll_shortened, Generator.reserveAll_shortened,
    Generator.find?_assignAll htakes, hnone, Option.or_none, find?_takes]

theorem mem_used_generator_iff {name : String} :
    name ∈ (generator selection start taken vertex fragment).used ↔
      (∃ entry ∈ selection.takes taken, entry.2 = name) ∨
        (name ∈ vertex.names ∨ name ∈ fragment.names) ∧ ¬selection.Has name := by
  have hstart : name ∉ (Generator.startingAt start).used := List.not_mem_nil
  rw [generator_eq, Generator.mem_reserveAll_used, Generator.mem_reserveAll_used,
    Generator.mem_used_assignAll, Census.keptNames, Census.keptNames, NameSet.mem_without,
    NameSet.mem_without, ← contains_renamed_iff, List.contains_iff_mem, or_iff_right hstart,
    or_assoc, or_and_right]

/-- A stage does not hand out the short names that it takes over, nor the names of either stage that
it does not select. -/
theorem mem_used_iff {values : NameMap String}
    (hvalues : ∀ entry ∈ taken, values.find? entry.1 = some entry.2) {name : String} :
    name ∈ (generator selection start taken vertex fragment).used ↔
      (∃ symbol, (generator selection start taken vertex fragment).shortened.find? symbol =
          some name) ∨
        (name ∈ vertex.names ∨ name ∈ fragment.names) ∧ ¬selection.Has name := by
  rw [mem_used_generator_iff]
  refine or_congr_left ?_
  simp only [find?_generator hvalues, ← find?_takes]
  constructor
  · rintro ⟨⟨symbol, short⟩, hentry, rfl⟩
    have hsome := List.lookup_isSome_iff.mpr ⟨_, hentry, beq_self_eq_true symbol⟩
    obtain ⟨other, hother⟩ := Option.isSome_iff_exists.mp hsome
    have hsame := hvalues _ (List.mem_filter.mp (NameMap.mem_of_find? hother)).1
    rw [hvalues _ (List.mem_filter.mp hentry).1, Option.some.injEq] at hsame
    exact ⟨symbol, hsame ▸ hother⟩
  · rintro ⟨symbol, hfind⟩
    exact ⟨_, NameMap.mem_of_find? hfind, rfl⟩

theorem proper_generator {values : NameMap String}
    (hvalues : ∀ entry ∈ taken, values.find? entry.1 = some entry.2)
    (hinjective : ∀ {a b short}, values.find? a = some short → values.find? b = some short → a = b) :
    (generator selection start taken vertex fragment).Proper where
  injective ha hb := by
    rw [find?_generator hvalues] at ha hb
    exact hinjective (hvalues _ (NameMap.mem_of_find? ha.2)) (hvalues _ (NameMap.mem_of_find? hb.2))
  used ha := by
    rw [find?_generator hvalues, ← find?_takes] at ha
    rw [generator_eq, Generator.mem_reserveAll_used, Generator.mem_reserveAll_used,
      Generator.mem_used_assignAll]
    exact Or.inl (Or.inl (Or.inr ⟨_, NameMap.mem_of_find? ha, rfl⟩))

theorem rename_generator (selection : Selection) (start : Nat) (taken : NameMap String)
    (vertex fragment : Census) {root : Node} (hroot : root.Grammatical) (values : NameMap String)
    (hvalues : ∀ entry ∈ taken, values.find? entry.1 = some entry.2)
    (hinjective : ∀ {a b short}, values.find? a = some short → values.find? b = some short → a = b) :
    ∃ change names', rename selection (generator selection start taken vertex fragment) root =
        .ok (change, names') ∧
      RenamedTree selection (generator selection start taken vertex fragment) root
        (change.result root) names' :=
  rename_spec hroot.fitsLayout (proper_generator hvalues hinjective)
    fun hfind => ((find?_generator hvalues).mp hfind).1

end Generator

/-! ### What is selected -/

/-- The selected names of a stage are variables or structures of its census, not both, and nothing
else. -/
structure Chosen (census : Census) (selection : Selection) : Prop where
  variableNames : ∀ {name}, name ∈ selection.variableNames → name ∈ census.variableNames ∧
    name ∉ census.structs ∧ name ∉ census.functions ∧ name ∉ census.directiveWords
  structs : ∀ {name}, name ∈ selection.structs → name ∈ census.structs ∧
    name ∉ census.variableNames ∧ name ∉ census.functions ∧ name ∉ census.directiveWords

theorem mem_renamableVariables {census : Census} {aggressive : Bool} {name : String}
    (h : name ∈ census.renamableVariables aggressive) : name ∈ census.variableNames ∧
      name ∉ census.structs ∧ name ∉ census.functions ∧ name ∉ census.directiveWords := by
  rw [Census.renamableVariables, List.mem_filter, NameSet.mem_without, Census.pinnedForVariables,
    NameSet.mem_ofList] at h
  simp only [List.mem_append, not_or] at h
  tauto

theorem mem_renamableStructs {census : Census} {name : String} (h : name ∈ census.renamableStructs) :
    name ∈ census.structs ∧ name ∉ census.variableNames ∧ name ∉ census.functions ∧
      name ∉ census.directiveWords := by
  rw [Census.renamableStructs, NameSet.mem_without, NameSet.mem_without, NameSet.mem_without] at h
  tauto

/-- What is selected in a stage. -/
def Plan.selection (plan : Plan) : Stage → Selection
  | .vertex => plan.vertex
  | .fragment => plan.fragment

theorem chosen_plan (aggressive : Bool) (census : Stage → Census) (stage : Stage) :
    Chosen (census stage)
      ((plan aggressive (census .vertex) (census .fragment)).selection stage) := by
  cases stage <;>
  exact
    { variableNames := fun h => mem_renamableVariables (NameSet.mem_without.mp h).1
      structs := fun h => mem_renamableStructs (NameSet.mem_without.mp h).1 }

/-! ### One stage, seen from its census -/

section Stage

variable {census : Census} {selection : Selection} {names names' : Generator} {root new : Node}

/-- Exactly the selected names have short ones afterwards. -/
theorem RenamedTree.has_iff (h : RenamedTree selection names root new names')
    (hroot : root.Grammatical) (hcensus : Census.ofNode root = .ok census)
    (hchosen : Chosen census selection) (name : String) :
    selection.Has name ↔ ∃ short, names'.shortened.find? name = some short := by
  constructor
  · rintro (hname | hname)
    · obtain ⟨site, hsite, hdeclares⟩ :=
        (Census.mem_variableNames_iff hroot hcensus).mp (hchosen.variableNames hname).1
      exact h.covered site hsite name (Or.inl ⟨hname, hdeclares⟩)
    · obtain ⟨site, hsite, hdefines⟩ :=
        (Census.mem_structs_iff hroot hcensus).mp (hchosen.structs hname).1
      exact h.covered site hsite name (Or.inr ⟨hname, hdefines⟩)
  · rintro ⟨short, hshort⟩
    exact h.domain hshort

theorem Chosen.mem_names (hchosen : Chosen census selection) (hroot : root.Grammatical)
    (hcensus : Census.ofNode root = .ok census) {name : String} (hname : selection.Has name) :
    name ∈ census.names := by
  rcases hname with hname | hname
  · exact Census.mem_names_of_variable hroot hcensus (hchosen.variableNames hname).1
  · exact Census.mem_names_of_struct hroot hcensus (hchosen.structs hname).1

theorem image_of_not_has {name : String} {map : NameMap String}
    (hdomain : ∀ {name short}, map.find? name = some short → selection.Has name)
    (hname : ¬selection.Has name) : map.image name = name := by
  cases hfind : map.find? name with
  | none => exact NameMap.image_of_not_contains hfind
  | some short => exact absurd (hdomain hfind) hname

/-- A variable or structure that is not selected is its own image, so that the census decides about
the spelling as well as the selection. -/
theorem Chosen.spelling_eq (hchosen : Chosen census selection) {map : NameMap String}
    (hdomain : ∀ {name short}, map.find? name = some short → selection.Has name) :
    spelling selection.variableNames selection.structs map =
      spelling census.variableNames census.structs map := by
  funext depth tag value
  have hvariable : value ∈ census.variableNames → value ∉ selection.variableNames →
      map.image value = value := fun hmem hnot =>
    image_of_not_has hdomain fun hhas =>
      hhas.elim hnot fun hstruct => (hchosen.structs hstruct).2.1 hmem
  have hstruct : value ∈ census.structs → value ∉ selection.structs →
      map.image value = value := fun hmem hnot =>
    image_of_not_has hdomain fun hhas =>
      hhas.elim (fun hvariable => (hchosen.variableNames hvariable).2.1 hmem) hnot
  have hvariable' : value ∈ selection.variableNames → value ∈ census.variableNames :=
    fun hmem => (hchosen.variableNames hmem).1
  have hstruct' : value ∈ selection.structs → value ∈ census.structs :=
    fun hmem => (hchosen.structs hmem).1
  unfold spelling
  split <;> grind

/-- A short name is no spelling that the stage keeps, unless the stage started with it. -/
theorem RenamedTree.has_of_short_mem (h : RenamedTree selection names root new names')
    (hused : ∀ name ∈ census.names, ¬selection.Has name → name ∈ names.used)
    (htaken : ∀ name short, names.shortened.find? name = some short → short ∈ census.names →
      selection.Has short)
    {name short : String} (hfind : names'.shortened.find? name = some short)
    (hmem : short ∈ census.names) : selection.Has short := by
  rcases h.grows.fresh hfind with hstart | ⟨hnew, -⟩
  · exact htaken name short hstart hmem
  · by_contra hkept
    exact hnew (hused short hmem hkept)

/-- The map of a stage, extended by the identity, is injective on the names of the stage if and only
if no short name it starts with is the spelling of a name that the stage keeps. -/
theorem RenamedTree.injective_iff (h : RenamedTree selection names root new names')
    (hroot : root.Grammatical) (hcensus : Census.ofNode root = .ok census)
    (hchosen : Chosen census selection)
    (hused : ∀ name ∈ census.names, ¬selection.Has name → name ∈ names.used) :
    names'.shortened.InjectiveOn census.names ↔
      ∀ name short, names.shortened.find? name = some short → short ∈ census.names →
        selection.Has short := by
  have hiff := h.has_iff hroot hcensus hchosen
  rw [h.proper.injectiveOn_iff fun hfind => hchosen.mem_names hroot hcensus (h.domain hfind)]
  constructor
  · intro hkept name short hfind hmem
    exact (hiff short).mpr (hkept name short (h.grows.keeps hfind) hmem)
  · intro htaken name short hfind hmem
    exact (hiff short).mp (h.has_of_short_mem hused htaken hfind hmem)

end Stage

end VariableNames

end GlslShrink
