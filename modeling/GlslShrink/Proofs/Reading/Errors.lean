import GlslShrink.Proofs.Reading.Termination

/-!
Where errors point. An error is reported at a place where some part at the end of the text is left,
so its position is the size of what stands in front of it: it lies in the text and between two
characters (`ReadError.PointsInto`). At the top of a shader the text is read declaration by
declaration, and each of them would be read in the same way if the text ended after it. So the text
up to the declaration that is wrong is a shader by itself (`Source.BreaksOff`).
-/

set_option autoImplicit false

namespace GlslShrink

open Reader Token Text

/-! ### Sizes in bytes -/

namespace Text

@[simp] theorem byteLength_append (first second : List Char) :
    byteLength (first ++ second) = byteLength first + byteLength second := by
  induction first with
  | nil => exact (Nat.zero_add _).symm
  | cons c first ih => rw [List.cons_append, byteLength, byteLength, ih, Nat.add_assoc]

theorem byteLength_eq_utf8ByteSize (text : String) :
    byteLength text.toList = text.utf8ByteSize := by
  obtain ⟨chars, rfl⟩ := text.exists_eq_ofList
  rw [String.toList_ofList]
  induction chars with
  | nil => rfl
  | cons c chars ih =>
    rw [byteLength, ih, String.ofList_cons, String.utf8ByteSize_append,
      String.utf8ByteSize_singleton]

theorem byteLength_le_of_suffix {rest text : List Char} (h : rest <:+ text) :
    byteLength rest ≤ byteLength text := by
  obtain ⟨front, rfl⟩ := h
  rw [byteLength_append]
  exact Nat.le_add_left _ _

/-- The part at the end of a text that has the given size, if there is one. -/
def restOf? (size : Nat) : List Char → Option (List Char)
  | [] => if size = 0 then some [] else none
  | c :: rest => if size = byteLength (c :: rest) then some (c :: rest) else restOf? size rest

/-- Two parts at the end of a text differ in size. -/
theorem restOf?_of_suffix {rest text : List Char} (h : rest <:+ text) :
    restOf? (byteLength rest) text = some rest := by
  induction text with
  | nil =>
    rw [List.suffix_nil.mp h]
    rfl
  | cons c text ih =>
    rcases List.suffix_cons_iff.mp h with rfl | h
    · exact if_pos rfl
    · have hle := byteLength_le_of_suffix h
      have hpos := c.utf8Size_pos
      have hne : byteLength rest ≠ byteLength (c :: text) := by
        rw [byteLength]
        omega
      rw [restOf?, if_neg hne, ih h]

end Text

/-! ### Errors inside a text -/

namespace ReadError

variable {source start place rest : List Char} {error : ReadError}

/-- The error is reported where `rest` is left of the text. -/
def At (source rest : List Char) (error : ReadError) : Prop :=
  rest <:+ source ∧ ∃ complaint, error = leaving source rest complaint

theorem at_leaving (h : rest <:+ source) (complaint : Complaint) :
    At source rest (leaving source rest complaint) :=
  ⟨h, complaint, rfl⟩

theorem at_expectedAt (h : rest <:+ source) (what : String) :
    At source rest (expectedAt source rest what) := by
  unfold expectedAt
  split
  · exact at_leaving h _
  · exact at_leaving h _

/-- A construct that gets stuck is reported where it starts or further on. -/
theorem at_stuckAt (hstart : start <:+ source) (hplace : place <:+ start) (what : String) :
    ∃ rest, rest <:+ start ∧ At source rest (stuckAt source start place what) := by
  unfold stuckAt
  split
  · exact ⟨start, List.suffix_refl start, at_expectedAt hstart what⟩
  · refine ⟨place, hplace, ?_⟩
    split
    · exact at_leaving (hplace.trans hstart) _
    · exact at_leaving (hplace.trans hstart) _

/-- The position is the size of what stands in front. -/
theorem At.position_eq {front : List Char} (h : At (front ++ rest) rest error) :
    error.position = byteLength front := by
  obtain ⟨-, complaint, rfl⟩ := h
  rw [leaving, byteLength_append, Nat.add_sub_cancel_right]

theorem At.exists_front (h : At source rest error) :
    ∃ front, source = front ++ rest ∧ error.position = byteLength front := by
  obtain ⟨front, rfl⟩ := h.1
  exact ⟨front, rfl, h.position_eq⟩

/-- The error is where a part at the end of the text is left, which is found again by its size. Its
position lies in the text, between two characters. -/
structure PointsInto (source : String) (error : ReadError) : Prop where
  left : ∃ rest complaint, error = leaving source.toList rest complaint ∧
    byteLength rest ≤ byteLength source.toList ∧
    restOf? (byteLength rest) source.toList = some rest
  within : error.position ≤ source.utf8ByteSize
  between : (⟨error.position⟩ : String.Pos.Raw).IsValid source

theorem At.pointsInto {source : String} (h : At source.toList rest error) :
    PointsInto source error := by
  obtain ⟨front, hsource, hposition⟩ := h.exists_front
  have hparts : source = String.ofList front ++ String.ofList rest := by
    rw [← String.ofList_append, ← hsource, String.ofList_toList]
  have hsize : error.position = (String.ofList front).utf8ByteSize := by
    rw [hposition, ← byteLength_eq_utf8ByteSize, String.toList_ofList]
  refine ⟨?_, ?_, ?_⟩
  · obtain ⟨hsuffix, complaint, hcomplaint⟩ := h
    exact ⟨rest, complaint, hcomplaint, byteLength_le_of_suffix hsuffix,
      restOf?_of_suffix hsuffix⟩
  · rw [hsize, hparts, String.utf8ByteSize_append]
    exact Nat.le_add_right _ _
  · exact String.Pos.Raw.isValid_iff_exists_append.mpr
      ⟨_, _, hparts, String.Pos.Raw.ext hsize⟩

end ReadError

/-! ### The top of a shader -/

namespace Source

open ReadError Statement

variable {source rest : List Char} {isFragment : Bool} {bound : Nat} {error : ReadError}

/-- What is wrong with the declaration at the start of a text. -/
def Wrong (source : List Char) (isFragment : Bool) (start : List Char) (error : ReadError) : Prop :=
  (∃ place, topLevel start = .stuck place ∧
    error = stuckAt source start place "a declaration") ∨
  isFragment = true ∧ ∃ node next, topLevel start = .read node next ∧ isAttribute node = true ∧
    error = leaving source start .attributeInFragment

theorem topLevels_eq_ok_cons {text next : List Char} {node : Node} {others : List Node}
    (hread : topLevel text = .read node next) (hallowed : (isFragment && isAttribute node) = false)
    (hothers : topLevels source isFragment next.length next = .ok others) :
    topLevels source isFragment text.length text = .ok (node :: others) := by
  have htakes := takes_topLevel _ _ _ hread
  obtain ⟨bound, hbound⟩ : ∃ bound, text.length = bound + 1 := ⟨text.length - 1, by omega⟩
  have hmore : topLevels source isFragment bound next = .ok others :=
    (topLevels_of_le (by omega) (Nat.le_refl _)).trans hothers
  rw [hbound, topLevels_read hread hallowed, hmore]
  rfl

/-- The rounds before the one that fails read the same declarations if the text ends there. -/
theorem topLevels_error (htoken : skipBlank rest = rest) (hbound : rest.length ≤ bound)
    (h : topLevels source isFragment bound rest = .error error) :
    ∃ text start declarations, rest = text ++ start ∧ start ≠ [] ∧
      Wrong source isFragment start error ∧
      ∀ source' isFragment', (isFragment' = true → isFragment = true) →
        topLevels source' isFragment' text.length text = .ok declarations := by
  have hnone : ∀ source' isFragment', (isFragment' = true → isFragment = true) →
      topLevels source' isFragment' ([] : List Char).length [] = .ok [] := fun _ _ _ => by
    rw [topLevels]
  fun_induction topLevels source isFragment bound rest with
  | case1 => cases h
  | case2 rest hne => exact absurd (List.length_eq_zero_iff.mp (Nat.le_zero.mp hbound)) hne
  | case3 bound rest hne place hstuck =>
    cases h
    exact ⟨[], rest, [], rfl, hne, Or.inl ⟨place, hstuck, rfl⟩, hnone⟩
  | case4 bound rest hne node next hread hattribute =>
    cases h
    rw [Bool.and_eq_true] at hattribute
    exact ⟨[], rest, [], rfl, hne,
      Or.inr ⟨hattribute.1, node, next, hread, hattribute.2, rfl⟩, hnone⟩
  | case5 bound rest hne node next hread hallowed ih =>
    have hadvances := advances_of_mem topLevel (by simp [grammarReaders])
    obtain ⟨hsuffix, hlt⟩ := hadvances.read hread
    have hlater : topLevels source isFragment bound next = .error error := by
      cases hothers : topLevels source isFragment bound next with
      | error other =>
        rw [hothers] at h
        cases h
        rfl
      | ok others =>
        rw [hothers] at h
        cases h
    obtain ⟨text, start, declarations, rfl, hstart, hwrong, hread'⟩ :=
      ih (topLevel_token htoken hread) (by omega) hlater
    obtain ⟨front, hfront⟩ := hsuffix
    rw [← List.append_assoc] at hfront
    subst hfront
    refine ⟨front ++ text, start, node :: declarations, rfl, hstart, hwrong,
      fun source' isFragment' himplies => ?_⟩
    have hallowed' : (isFragment' && isAttribute node) = false := by
      rw [Bool.and_eq_true] at hallowed
      rw [Bool.and_eq_false_imp]
      exact fun hkind => Bool.eq_false_iff.mpr fun hattribute =>
        hallowed ⟨himplies hkind, hattribute⟩
    exact topLevels_eq_ok_cons (topLevel_cut htoken hread) hallowed'
      (hread' source' isFragment' himplies)

/-- An error in a shader belongs to a declaration: it is reported where the declaration starts or
further on, and the text in front of that declaration is a shader by itself. -/
def BreaksOff (source : String) (isFragment : Bool) (error : ReadError) : Prop :=
  ∃ before start declarations, source = before ++ start ∧ start ≠ "" ∧
    Wrong source.toList isFragment start.toList error ∧ before.utf8ByteSize ≤ error.position ∧
    shader before.toList isFragment = .ok (.shader declarations) ∧
    shader before.toList false = .ok (.shader declarations)

theorem Wrong.at {start : List Char} (h : Wrong source isFragment start error)
    (hstart : start <:+ source) : ∃ rest, rest <:+ start ∧ ReadError.At source rest error := by
  rcases h with ⟨place, hstuck, rfl⟩ | ⟨-, node, next, -, -, rfl⟩
  · have hadvances := advances_of_mem topLevel (by simp [grammarReaders])
    exact at_stuckAt hstart (hadvances.stuck hstuck) _
  · exact ⟨start, List.suffix_refl start, at_leaving hstart _⟩

theorem shader_error {source : List Char} (h : shader source isFragment = .error error) :
    ∃ before start declarations, source = before ++ start ∧ start ≠ [] ∧
      Wrong source isFragment start error ∧
      ∀ isFragment', (isFragment' = true → isFragment = true) →
        shader before isFragment' = .ok (.shader declarations) := by
  have hrounds : topLevels source isFragment source.length (skipBlank source) = .error error := by
    cases hread : topLevels source isFragment source.length (skipBlank source) with
    | error other =>
      rw [shader, hread] at h
      cases h
      rfl
    | ok declarations =>
      rw [shader, hread] at h
      cases h
  obtain ⟨text, start, declarations, htext, hstart, hwrong, hread⟩ :=
    topLevels_error (skipBlank_skipBlank source) (skipBlank_suffix source).length_le hrounds
  obtain ⟨blanks, hblanks⟩ := skipBlank_suffix source
  have hsource : source = (blanks ++ text) ++ start := by
    rw [List.append_assoc, ← htext, hblanks]
  refine ⟨blanks ++ text, start, declarations, hsource, hstart, hwrong,
    fun isFragment' himplies => ?_⟩
  have hskip : skipBlank (blanks ++ text) = text := by
    rw [hsource] at htext
    exact skipBlank_of_append htext
  have hle : text.length ≤ (blanks ++ text).length := by
    rw [List.length_append]
    exact Nat.le_add_left _ _
  rw [shader, hskip, topLevels_of_le hle (Nat.le_refl _), hread _ isFragment' himplies]
  rfl

end Source

/-- Whether the rule reads a whole shader. -/
def StartRule.isShader : StartRule → Bool
  | .shader | .vertexShader | .fragmentShader => true
  | .expression | .statement => false

/-- The text up to the declaration that is wrong, as a string. -/
theorem Source.breaksOff {source : String} {isFragment : Bool} {error : ReadError}
    (h : shader source.toList isFragment = .error error) : BreaksOff source isFragment error := by
  obtain ⟨before, start, declarations, hsource, hstart, hwrong, hread⟩ := shader_error h
  have hsuffix : start <:+ source.toList := ⟨before, hsource.symm⟩
  refine ⟨String.ofList before, String.ofList start, declarations, ?_, ?_, ?_, ?_, ?_, ?_⟩
  · rw [← String.ofList_append, ← hsource, String.ofList_toList]
  · intro hempty
    rw [← String.toList_inj, String.toList_ofList] at hempty
    exact hstart hempty
  · rwa [String.toList_ofList]
  · obtain ⟨rest, hrest, hat⟩ := hwrong.at hsuffix
    obtain ⟨front, hfront, hposition⟩ := hat.exists_front
    rw [hposition, ← byteLength_eq_utf8ByteSize, String.toList_ofList]
    have hsizes : byteLength before + byteLength start = byteLength front + byteLength rest := by
      rw [← byteLength_append, ← byteLength_append, ← hsource, hfront]
    have hle := byteLength_le_of_suffix hrest
    omega
  · rw [String.toList_ofList]
    exact hread isFragment id
  · rw [String.toList_ofList]
    exact hread false fun hfalse => absurd hfalse Bool.false_ne_true

theorem Source.complete_error {source : List Char} {reader : Reader Node} {what : String}
    {error : ReadError} (hreader : reader.Advances)
    (h : complete source reader what = .error error) : ∃ rest, ReadError.At source rest error := by
  have hstart := skipBlank_suffix source
  rw [complete] at h
  split at h
  · cases h
  · rename_i rest _ hread
    cases h
    exact ⟨_, ReadError.at_expectedAt ((hreader.read hread).1.trans hstart) _⟩
  · rename_i place hstuck
    cases h
    obtain ⟨rest, -, hat⟩ := ReadError.at_stuckAt hstart (hreader.stuck hstuck) what
    exact ⟨rest, hat⟩

theorem Source.shader_error_at {source : List Char} {isFragment : Bool} {error : ReadError}
    (h : shader source isFragment = .error error) : ∃ rest, ReadError.At source rest error := by
  obtain ⟨before, start, -, rfl, -, hwrong, -⟩ := shader_error h
  obtain ⟨rest, -, hat⟩ := hwrong.at (List.suffix_append before start)
  exact ⟨rest, hat⟩

/-- Every error of every start rule is at some place of the text. -/
theorem parse_error_at {source : String} {rule : StartRule} {error : ReadError}
    (h : parse source rule = .error error) : ∃ rest, ReadError.At source.toList rest error := by
  have hmem : ∀ p ∈ grammarReaders, p.Advances := advances_of_mem
  cases rule with
  | shader => exact Source.shader_error_at h
  | vertexShader => exact Source.shader_error_at h
  | fragmentShader => exact Source.shader_error_at h
  | expression => exact Source.complete_error (hmem _ (by simp [grammarReaders])) h
  | statement => exact Source.complete_error (hmem _ (by simp [grammarReaders])) h

/-- Reading ends on every text, with something left at the end of it or stuck somewhere in it. An
error of any start rule points into the text. In a shader it is not in front of the declaration that
is wrong, and what stands in front of that declaration is a shader by itself. -/
theorem reading_ends_and_errors_point_into_text :
    GrammarEnds ∧ (∀ p ∈ grammarReaders, p.Advances) ∧
      (∀ p ∈ grammarReaders, ∀ source start place, start <:+ source → p start = .stuck place →
        byteLength place ≤ byteLength source ∧ restOf? (byteLength place) source = some place) ∧
      ∀ source rule error, parse source rule = .error error → error.PointsInto source ∧
        (rule.isShader = true → Source.BreaksOff source (rule == .fragmentShader) error) := by
  refine ⟨grammarEnds, advances_of_mem, fun p hp source start place hstart hstuck => ?_,
    fun source rule error herror => ⟨?_, fun hshader => ?_⟩⟩
  · have hsuffix := ((advances_of_mem p hp).stuck hstuck).trans hstart
    exact ⟨byteLength_le_of_suffix hsuffix, restOf?_of_suffix hsuffix⟩
  · obtain ⟨rest, hat⟩ := parse_error_at herror
    exact hat.pointsInto
  · cases rule with
    | shader => exact Source.breaksOff herror
    | vertexShader => exact Source.breaksOff herror
    | fragmentShader => exact Source.breaksOff herror
    | expression => cases hshader
    | statement => cases hshader

/-- The error of a text that cannot be read. -/
def errorOf? (source : String) (rule : StartRule) : Option ReadError :=
  match parse source rule with
  | .ok _ => none
  | .error error => some error

theorem parse_of_errorOf? {source : String} {rule : StartRule} {error : ReadError}
    (h : errorOf? source rule = some error) : parse source rule = .error error := by
  unfold errorOf? at h
  split at h
  · cases h
  · rename_i hparse
    cases h
    exact hparse

/-- The assignment in the second declaration lacks a value; the comment is longer in bytes than in
characters. -/
theorem reading_ends_and_errors_point_into_text_assignment :
    parse "/*é*/float a;\nvoid main(){a=;}" .fragmentShader =
        .error ⟨.unexpected (some ";\x7d"), 29⟩ ∧
      (⟨.unexpected (some ";\x7d"), 29⟩ : ReadError).PointsInto "/*é*/float a;\nvoid main(){a=;}" ∧
      Source.BreaksOff "/*é*/float a;\nvoid main(){a=;}" true ⟨.unexpected (some ";\x7d"), 29⟩ := by
  have hparse : parse "/*é*/float a;\nvoid main(){a=;}" .fragmentShader =
      .error ⟨.unexpected (some ";\x7d"), 29⟩ := parse_of_errorOf? (by decide +kernel)
  obtain ⟨hpoints, hbreaks⟩ := reading_ends_and_errors_point_into_text.2.2.2 _ _ _ hparse
  exact ⟨hparse, hpoints, hbreaks rfl⟩

end GlslShrink
