import GlslShrink.Document
import GlslShrink.Proofs.Text.Lines

/-!
Which documents are read back from their text. The text of a document consists of the marker of the
vertex stage, the lines of its source, the marker of the fragment stage and the lines of the other
source, and splitting stops the first section at the first line that looks like the second marker
(`split_of_lines`). A source comes back if it is empty, or if its last line is ended, it is more than
one empty line and no carriage return stands in front of a line feed (`Storable`).
-/

set_option autoImplicit false

namespace GlslShrink.Document

open Text

/-! ### Sections -/

/-- The source comes back from a section of its own. -/
def Storable (source : String) : Prop :=
  source = "" ∨
    source.toList.getLast? = some '\n' ∧ source ≠ "\n" ∧ ¬ ['\r', '\n'] <:+: source.toList

theorem getLast?_ended (text : List Char) : (ended text).getLast? = some '\n' := by
  unfold ended
  split
  · assumption
  · exact List.getLast?_concat

theorem ended_of_getLast? {text : List Char} (h : text.getLast? = some '\n') : ended text = text :=
  if_pos h

theorem intercalate_append_newline (line : List Char) (lines : List (List Char)) :
    ['\n'].intercalate (line :: lines) ++ ['\n'] = unlines (line :: lines) := by
  induction lines generalizing line with
  | nil => simp [unlines_cons]
  | cons next lines ih =>
    rw [List.intercalate_cons_cons, List.append_assoc, ih next, unlines_cons line,
      List.append_assoc, List.singleton_append]

/-- A section is the text of its lines, unless it has a single empty line. -/
theorem toList_joinLines (lines : List (List Char)) :
    (joinLines lines).toList = if lines = [[]] then [] else unlines lines := by
  cases lines with
  | nil => rfl
  | cons line others =>
    have hjoin := intercalate_append_newline line others
    have hnil : ['\n'].intercalate (line :: others) = [] ↔ line :: others = [[]] := by
      cases others <;> simp [List.intercalate_cons_cons]
    unfold joinLines
    split
    · rename_i hempty
      rw [if_pos (hnil.mp hempty)]
      rfl
    · rename_i hempty
      rw [if_neg (fun hsingle => hempty (hnil.mpr hsingle)), String.toList_ofList, hjoin]

/-- A section that is not empty has the lines it was put together from. -/
theorem eq_of_joinLines {kept : List (List Char)} {source : String} (h : joinLines kept = source)
    (hsource : source ≠ "") : kept ≠ [[]] ∧ source.toList = unlines kept := by
  have hkept : kept ≠ [[]] := by
    rintro rfl
    exact hsource h.symm
  refine ⟨hkept, ?_⟩
  rw [← h, toList_joinLines, if_neg hkept]

section Section

variable {source : String} {raw kept : List (List Char)}

/-- A source that comes back from some of the lines of its section comes back from all of them. -/
theorem storable_of_joinLines (hraw : ∀ line ∈ raw, '\n' ∉ line)
    (hended : ended source.toList = unlines raw) (hkept : kept <+: raw.map chomp)
    (h : joinLines kept = source) : Storable source ∧ (source = "" ∨ kept = raw.map chomp) := by
  by_cases hsource : source = ""
  · exact ⟨Or.inl hsource, Or.inl hsource⟩
  · obtain ⟨hsingle, htext⟩ := eq_of_joinLines h hsource
    have hne : kept ≠ [] := by
      rintro rfl
      exact hsource h.symm
    have hlast : source.toList.getLast? = some '\n' := htext ▸ getLast?_unlines hne
    have hlines := newline_not_mem_map_chomp hraw
    have hsame : kept = raw := by
      refine unlines_injective (fun line hline => hlines line (hkept.subset hline)) hraw ?_
      rw [← htext, ← hended, ended_of_getLast? hlast]
    have hall : kept = raw.map chomp :=
      hkept.eq_of_length (by rw [hsame, List.length_map])
    refine ⟨Or.inr ⟨hlast, fun hnewline => hsingle ?_, ?_⟩, Or.inr hall⟩
    · refine unlines_injective (fun line hline => hlines line (hkept.subset hline)) (by simp) ?_
      rw [← htext, hnewline]
      rfl
    · rw [htext, hsame]
      exact (map_chomp_eq_self_iff hraw).mp (hall.symm.trans hsame)

/-- A storable source comes back from the lines of its section. -/
theorem joinLines_of_storable (hraw : ∀ line ∈ raw, '\n' ∉ line)
    (hended : ended source.toList = unlines raw) (h : Storable source) :
    joinLines (raw.map chomp) = source := by
  rcases h with rfl | ⟨hlast, hnewline, hreturn⟩
  · have hempty : raw = [[]] := unlines_injective hraw (by simp) hended.symm
    rw [hempty]
    rfl
  · rw [ended_of_getLast? hlast] at hended
    rw [hended] at hreturn
    rw [(map_chomp_eq_self_iff hraw).mpr hreturn, ← String.toList_inj, toList_joinLines, if_neg,
      hended]
    rintro rfl
    exact hnewline (String.toList_inj.mp hended)

end Section

/-! ### Splitting -/

/-- Splitting a text whose first line marks the vertex stage. The first section ends at the first
line that marks the fragment stage. -/
theorem split_of_lines {text : String} {first mark : List Char} {front after : List (List Char)}
    (hlines : lines text.toList = first :: (front ++ mark :: after))
    (hfirst : isMarker .vertex first = true) (hother : isMarker .fragment first = false)
    (hfront : ∀ line ∈ front, isMarker .fragment line = false)
    (hmark : isMarker .fragment mark = true) :
    split text = .ok ⟨joinLines front, joinLines after⟩ := by
  have hvertex : markerIndex? (lines text.toList) .vertex = some 0 := by
    rw [markerIndex?, hlines, List.findIdx?_cons, if_pos hfirst]
  have hfragment : markerIndex? (lines text.toList) .fragment = some (front.length + 1) := by
    rw [markerIndex?, hlines, List.findIdx?_cons, if_neg (by rw [hother]; exact Bool.false_ne_true),
      List.findIdx?_append, List.findIdx?_eq_none_iff.mpr hfront, List.findIdx?_cons, if_pos hmark]
    simp
  have hlocate : locate (lines text.toList) = .ok (0, front.length + 1) := by
    simp only [locate, hvertex, hfragment]
    rfl
  simp only [split, hlocate, bind, Except.bind, pure, Except.pure]
  simp [hlines]

theorem markerIndex?_of_locate {lines : List (List Char)} {vertexAt fragmentAt : Nat}
    (h : locate lines = .ok (vertexAt, fragmentAt)) :
    markerIndex? lines .vertex = some vertexAt ∧ markerIndex? lines .fragment = some fragmentAt ∧
      vertexAt ≤ fragmentAt := by
  unfold locate at h
  split at h
  · cases h
  · rename_i vertexFound hvertex
    split at h
    · cases h
    · rename_i fragmentFound hfragment
      split at h
      · cases h
      · rename_i horder
        split at h
        · cases h
        · cases h
          exact ⟨hvertex, hfragment, Nat.le_of_not_lt horder⟩

/-- The lines in front of the first marker of a stage. -/
theorem take_markerIndex? {lines : List (List Char)} {stage : Stage} {i : Nat}
    (h : markerIndex? lines stage = some i) :
    lines.take i = lines.takeWhile (fun line => !isMarker stage line) := by
  have hindex := (List.findIdx?_eq_some_iff_findIdx_eq.mp h).2
  rw [List.takeWhile_eq_take_findIdx_not]
  simp only [Bool.not_not]
  rw [← hindex]

/-- Splitting gives sections of lines of the text, and no line of the first one marks the fragment
stage. -/
theorem lines_of_split {text : String} {document : Document} (h : split text = .ok document) :
    ∃ front after, document = ⟨joinLines front, joinLines after⟩ ∧
      (∀ line ∈ front, line ∈ lines text.toList ∧ isMarker .fragment line = false) ∧
      ∀ line ∈ after, line ∈ lines text.toList := by
  cases hlocate : locate (lines text.toList) with
  | error error =>
    simp only [split, hlocate, bind, Except.bind] at h
    cases h
  | ok found =>
    obtain ⟨vertexAt, fragmentAt⟩ := found
    simp only [split, hlocate, bind, Except.bind, pure, Except.pure] at h
    cases h
    refine ⟨_, _, rfl, fun line hline => ?_, fun line hline => List.mem_of_mem_drop hline⟩
    have htaken := List.mem_of_mem_drop hline
    refine ⟨List.mem_of_mem_take htaken, ?_⟩
    rw [take_markerIndex? (markerIndex?_of_locate hlocate).2.1] at htaken
    simpa using List.all_eq_true.mp List.all_takeWhile line htaken

/-! ### Documents -/

/-- The text of a document, line by line. -/
theorem toList_toText {document : Document} {rawVertex rawFragment : List (List Char)}
    (hvertex : ended document.vertex.toList = unlines rawVertex)
    (hfragment : ended document.fragment.toList = unlines rawFragment) :
    document.toText.toList =
      unlines (Stage.vertex.marker.toList ::
        (rawVertex ++ Stage.fragment.marker.toList :: rawFragment)) := by
  rw [toText, String.toList_ofList, sectionText, sectionText, hvertex, hfragment, unlines_cons,
    unlines_append, unlines_cons, List.append_assoc, List.cons_append]

theorem newline_not_mem_marker (stage : Stage) : '\n' ∉ stage.marker.toList := by
  cases stage <;> decide

theorem chomp_marker (stage : Stage) : chomp stage.marker.toList = stage.marker.toList := by
  cases stage <;> rfl

/-- The lines of the text of a document. -/
theorem lines_toText {document : Document} {rawVertex rawFragment : List (List Char)}
    (hrawVertex : ∀ line ∈ rawVertex, '\n' ∉ line)
    (hrawFragment : ∀ line ∈ rawFragment, '\n' ∉ line)
    (hvertex : ended document.vertex.toList = unlines rawVertex)
    (hfragment : ended document.fragment.toList = unlines rawFragment) :
    lines document.toText.toList =
      Stage.vertex.marker.toList ::
        (rawVertex.map chomp ++ Stage.fragment.marker.toList :: rawFragment.map chomp) := by
  have hall : ∀ line ∈ Stage.vertex.marker.toList ::
      (rawVertex ++ Stage.fragment.marker.toList :: rawFragment), '\n' ∉ line := by
    simp only [List.forall_mem_cons, List.forall_mem_append]
    exact ⟨newline_not_mem_marker .vertex, hrawVertex, newline_not_mem_marker .fragment,
      hrawFragment⟩
  rw [toList_toText hvertex hfragment, lines_unlines hall, List.map_cons, List.map_append,
    List.map_cons, chomp_marker, chomp_marker]

theorem exists_raw (source : String) :
    ∃ raw, ended source.toList = unlines raw ∧ ∀ line ∈ raw, '\n' ∉ line :=
  exists_unlines (Or.inr (getLast?_ended source.toList))

/-- The line marks the stage: it is the marker, with white space after it or none. -/
def MarksStage : Stage → List Char → Prop
  | .vertex, line => trimEnd line = "//! VERTEX".toList
  | .fragment, line => trimEnd line = "//! FRAGMENT".toList

theorem isMarker_iff {stage : Stage} {line : List Char} :
    isMarker stage line = true ↔ MarksStage stage line := by
  cases stage with
  | vertex => exact beq_iff_eq
  | fragment => exact beq_iff_eq

theorem isMarker_eq_false_iff {stage : Stage} {line : List Char} :
    isMarker stage line = false ↔ ¬ MarksStage stage line := by
  rw [← isMarker_iff, Bool.not_eq_true]

/-- No line of the source marks the fragment stage. -/
def Unmarked (source : String) : Prop :=
  ∀ line ∈ lines source.toList, trimEnd line ≠ "//! FRAGMENT".toList

/-- The lines of the section of a storable source are its own, or the section is empty. -/
theorem unmarked_iff {source : String} {raw : List (List Char)}
    (hraw : ∀ line ∈ raw, '\n' ∉ line) (hended : ended source.toList = unlines raw)
    (hstorable : Storable source) :
    Unmarked source ↔ ∀ line ∈ raw.map chomp, isMarker .fragment line = false := by
  simp only [Unmarked, isMarker_eq_false_iff, MarksStage, ne_eq]
  rcases hstorable with rfl | ⟨hlast, -⟩
  · have hempty : raw = [[]] := unlines_injective hraw (by simp) hended.symm
    rw [hempty]
    decide
  · rw [← lines_unlines hraw, ← hended, ended_of_getLast? hlast]

theorem split_toText_of_storable {document : Document} (hvertex : Storable document.vertex)
    (hfragment : Storable document.fragment) (hunmarked : Unmarked document.vertex) :
    split document.toText = .ok document := by
  obtain ⟨rawVertex, hendedVertex, hrawVertex⟩ := exists_raw document.vertex
  obtain ⟨rawFragment, hendedFragment, hrawFragment⟩ := exists_raw document.fragment
  have hsplit := split_of_lines
    (lines_toText hrawVertex hrawFragment hendedVertex hendedFragment) rfl rfl
    ((unmarked_iff hrawVertex hendedVertex hvertex).mp hunmarked) rfl
  rwa [joinLines_of_storable hrawVertex hendedVertex hvertex,
    joinLines_of_storable hrawFragment hendedFragment hfragment] at hsplit

/-- The first of the lines that mark a stage is a given one or comes before it. -/
theorem exists_first_marker {stage : Stage} {mark : List Char} (hmark : isMarker stage mark = true)
    (front after : List (List Char)) :
    ∃ front' mark' after', front ++ mark :: after = front' ++ mark' :: after' ∧
      (∀ line ∈ front', isMarker stage line = false) ∧ isMarker stage mark' = true ∧
      front' <+: front ∧ (front' = front ∨ mark' ∈ front) := by
  induction front with
  | nil =>
    exact ⟨[], mark, after, rfl, List.forall_mem_nil _, hmark, List.prefix_rfl, Or.inl rfl⟩
  | cons line front ih =>
    cases hline : isMarker stage line with
    | true =>
      exact ⟨[], line, front ++ mark :: after, rfl, List.forall_mem_nil _, hline,
        List.nil_prefix, Or.inr List.mem_cons_self⟩
    | false =>
      obtain ⟨front', mark', after', hlines, hfront, hfirst, hstart, hwhere⟩ := ih
      refine ⟨line :: front', mark', after', congrArg (line :: ·) hlines,
        List.forall_mem_cons.mpr ⟨hline, hfront⟩, hfirst,
        List.cons_prefix_cons.mpr ⟨rfl, hstart⟩, ?_⟩
      exact hwhere.imp (congrArg (line :: ·)) (List.mem_cons_of_mem line)

theorem storable_of_split_toText {document : Document}
    (h : split document.toText = .ok document) :
    Storable document.vertex ∧ Storable document.fragment ∧ Unmarked document.vertex := by
  obtain ⟨rawVertex, hendedVertex, hrawVertex⟩ := exists_raw document.vertex
  obtain ⟨rawFragment, hendedFragment, hrawFragment⟩ := exists_raw document.fragment
  have hlines := lines_toText hrawVertex hrawFragment hendedVertex hendedFragment
  -- the first section ends at the first line that marks the fragment stage
  have hmarker : isMarker .fragment Stage.fragment.marker.toList = true := rfl
  obtain ⟨front, mark, after, hcut, hfront, hmark, hstart, hwhere⟩ :=
    exists_first_marker hmarker (rawVertex.map chomp) (rawFragment.map chomp)
  have hsections : (⟨joinLines front, joinLines after⟩ : Document) = document := by
    rw [hcut] at hlines
    exact Except.ok.inj ((split_of_lines hlines rfl rfl hfront hmark).symm.trans h)
  obtain ⟨hvertex, hall⟩ := storable_of_joinLines hrawVertex hendedVertex hstart
    (congrArg Document.vertex hsections)
  have hwhole : front = rawVertex.map chomp := by
    rcases hall with hempty | hall
    · refine hwhere.resolve_right fun hmem => ?_
      have hunmarked : Unmarked document.vertex := by
        rw [Unmarked, hempty]
        exact List.forall_mem_nil _
      have hnone := (unmarked_iff hrawVertex hendedVertex hvertex).mp hunmarked mark hmem
      rw [hmark] at hnone
      cases hnone
    · exact hall
  have hafter : after = rawFragment.map chomp := by
    rw [hwhole] at hcut
    exact (List.cons.inj (List.append_cancel_left hcut)).2.symm
  refine ⟨hvertex, ?_, (unmarked_iff hrawVertex hendedVertex hvertex).mpr (hwhole ▸ hfront)⟩
  have hlast : joinLines (rawFragment.map chomp) = document.fragment := by
    rw [← hafter]
    exact congrArg Document.fragment hsections
  exact (storable_of_joinLines hrawFragment hendedFragment List.prefix_rfl hlast).1

/-! ### Texts without carriage returns -/

theorem storable_joinLines {kept : List (List Char)} (hbreak : ∀ line ∈ kept, '\n' ∉ line)
    (hreturn : ∀ line ∈ kept, '\r' ∉ line) : Storable (joinLines kept) := by
  by_cases hempty : joinLines kept = ""
  · exact Or.inl hempty
  · obtain ⟨hsingle, htext⟩ := eq_of_joinLines rfl hempty
    refine Or.inr ⟨?_, fun hnewline => hsingle ?_, ?_⟩
    · rw [htext]
      refine getLast?_unlines ?_
      rintro rfl
      exact hempty rfl
    · refine unlines_injective hbreak (by simp) ?_
      rw [← htext, hnewline]
      rfl
    · rw [htext, return_infix_unlines hbreak]
      rintro ⟨line, hline, hlast⟩
      exact hreturn line hline (List.mem_of_getLast? hlast)

theorem unmarked_joinLines {kept : List (List Char)} (hbreak : ∀ line ∈ kept, '\n' ∉ line)
    (hreturn : ∀ line ∈ kept, '\r' ∉ line)
    (hmarker : ∀ line ∈ kept, isMarker .fragment line = false) : Unmarked (joinLines kept) := by
  have hchomp : kept.map chomp = kept := by
    rw [map_chomp_eq_self_iff hbreak, return_infix_unlines hbreak]
    rintro ⟨line, hline, hlast⟩
    exact hreturn line hline (List.mem_of_getLast? hlast)
  intro line hline
  rw [toList_joinLines] at hline
  split at hline
  · cases hline
  · rw [lines_unlines hbreak, hchomp] at hline
    exact isMarker_eq_false_iff.mp (hmarker line hline)

/-- A document is read back from its text if and only if both sources are storable and no line of
the vertex source looks like the marker of the fragment stage. So a document that was read from a
text without carriage returns is read back. -/
theorem split_toText_iff :
    (∀ document : Document, split document.toText = .ok document ↔
      Storable document.vertex ∧ Storable document.fragment ∧ Unmarked document.vertex) ∧
    ∀ (text : String) (document : Document), '\r' ∉ text.toList → split text = .ok document →
      split document.toText = .ok document := by
  refine ⟨fun document => ⟨storable_of_split_toText, ?_⟩, fun text document hreturn hsplit => ?_⟩
  · rintro ⟨hvertex, hfragment, hunmarked⟩
    exact split_toText_of_storable hvertex hfragment hunmarked
  · obtain ⟨front, after, rfl, hfront, hafter⟩ := lines_of_split hsplit
    have hbreak : ∀ line ∈ lines text.toList, '\n' ∉ line := fun _ =>
      newline_not_mem_of_mem_lines
    have hreturns : ∀ line ∈ lines text.toList, '\r' ∉ line := fun line hline hmem =>
      hreturn (subset_of_mem_lines hline hmem)
    have hfrontBreak : ∀ line ∈ front, '\n' ∉ line := fun line hline =>
      hbreak line (hfront line hline).1
    have hfrontReturn : ∀ line ∈ front, '\r' ∉ line := fun line hline =>
      hreturns line (hfront line hline).1
    refine split_toText_of_storable (storable_joinLines hfrontBreak hfrontReturn) ?_
      (unmarked_joinLines hfrontBreak hfrontReturn fun line hline => (hfront line hline).2)
    exact storable_joinLines (fun line hline => hbreak line (hafter line hline))
      fun line hline => hreturns line (hafter line hline)

/-- Blank lines in front, a marker with a space behind it and a section of one empty line do no
harm. -/
theorem split_toText_iff_blankSection :
    '\r' ∉ "\n//! VERTEX\n\n#define A\n//! FRAGMENT \n\n".toList ∧
      split "\n//! VERTEX\n\n#define A\n//! FRAGMENT \n\n" = .ok ⟨"\n#define A\n", ""⟩ ∧
      split (Document.toText ⟨"\n#define A\n", ""⟩) = .ok ⟨"\n#define A\n", ""⟩ := by
  have hreturn : '\r' ∉ "\n//! VERTEX\n\n#define A\n//! FRAGMENT \n\n".toList := by decide
  have hsplit : split "\n//! VERTEX\n\n#define A\n//! FRAGMENT \n\n" =
      .ok ⟨"\n#define A\n", ""⟩ := by
    decide +kernel
  exact ⟨hreturn, hsplit, split_toText_iff.2 _ _ hreturn hsplit⟩

end GlslShrink.Document
