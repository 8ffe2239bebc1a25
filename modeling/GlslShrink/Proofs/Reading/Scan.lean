import GlslShrink.Proofs.Reading.Literals

/-!
What a text says apart from its layout. A scan goes through the text, passes over white space and
comments, takes directives line by line and everything else character by character (`Text.scan`).
`Text.stripped` copies what the scan finds, without parentheses; `Text.hasVoidList` looks for lists
that consist of the word `void`. A reader sees the same blanks and comments as the scan
(`Text.scan_skipBlank`).
-/

set_option autoImplicit false

namespace GlslShrink.Text

open Token

section Scan

variable {α : Type} (char : Char → List Char → α → α) (directive : List Char → α → α) (last : α)

/-- Combines what is found in a text from its end: `char` is given every character outside of
blanks, comments and directives together with the text after it, and `directive` every directive
from its mark to the end of its line. A block comment that is never closed is no comment. -/
def scan : List Char → α
  | [] => last
  | '/' :: '/' :: rest => scan (rest.dropWhile (· != '\n'))
  | '/' :: '*' :: rest =>
    match _found : afterComment? rest with
    | some after => scan after
    | none => char '/' ('*' :: rest) (scan ('*' :: rest))
  | '#' :: rest =>
    directive ('#' :: rest.takeWhile (· != '\n')) (scan (rest.dropWhile (· != '\n')))
  | c :: rest => if isSpace c then scan rest else char c rest (scan rest)
termination_by text => text.length
decreasing_by
  · have := length_dropWhile_le (· != '\n') rest
    grind
  · have := length_afterComment?_lt _found
    grind
  · grind
  · have := length_dropWhile_le (· != '\n') rest
    grind
  · grind
  · grind

end Scan

def isParenthesis (c : Char) : Bool :=
  c == '(' || c == ')'

/-- The text without white space, comments and parentheses. Directives lose only the white space at
their ends. -/
def stripped : List Char → List Char :=
  scan (fun c _ more => if isParenthesis c then more else c :: more)
    (fun line more => trimEnd line ++ more) []

/-- Whether the text goes on with the word `void` and a closing parenthesis, apart from blanks and
comments. -/
def startsVoidList (text : List Char) : Bool :=
  match afterStart? ['v', 'o', 'i', 'd'] (skipBlank text) with
  | some rest => (skipBlank rest).head? == some ')'
  | none => false

/-- Whether some opening parenthesis is followed by the word `void` and a closing one. -/
def hasVoidList : List Char → Bool :=
  scan (fun c rest more => (c == '(' && startsVoidList rest) || more) (fun _ more => more) false

/-! ### What a scan finds -/

/-- A character that no blank, comment or directive starts with. -/
def isPlain (c : Char) : Bool :=
  !isSpace c && c != '/' && c != '#'

section Scan

variable {α : Type} {char : Char → List Char → α → α} {directive : List Char → α → α} {last : α}

theorem scan_nil : scan char directive last [] = last := by
  rw [scan.eq_def]

theorem scan_plain {c : Char} (rest : List Char) (h : isPlain c = true) :
    scan char directive last (c :: rest) = char c rest (scan char directive last rest) := by
  simp only [isPlain, Bool.and_eq_true, Bool.not_eq_true', bne_iff_ne, ne_eq] at h
  rw [scan.eq_def]
  split <;> simp_all

theorem scan_space {c : Char} (rest : List Char) (h : isSpace c = true) :
    scan char directive last (c :: rest) = scan char directive last rest := by
  have hslash : c ≠ '/' := by
    rintro rfl
    cases h
  have hhash : c ≠ '#' := by
    rintro rfl
    cases h
  rw [scan.eq_def]
  split <;> simp_all

theorem scan_spaces {spaces : List Char} (rest : List Char) (h : ∀ c ∈ spaces, isSpace c = true) :
    scan char directive last (spaces ++ rest) = scan char directive last rest := by
  induction spaces with
  | nil => rfl
  | cons c spaces ih =>
    rw [List.cons_append, scan_space _ (h c List.mem_cons_self),
      ih fun d hd => h d (List.mem_cons_of_mem _ hd)]

theorem scan_comment {rest after : List Char} (h : afterComment? rest = some after) :
    scan char directive last ('/' :: '*' :: rest) = scan char directive last after := by
  rw [scan.eq_def]
  split
  case h_3 more heq =>
    cases heq
    split <;> simp_all
  case h_5 _ _ _ _ hblock _ heq =>
    cases heq
    exact absurd rfl (hblock rest rfl)
  all_goals simp_all

theorem scan_lineComment (rest : List Char) :
    scan char directive last ('/' :: '/' :: rest) =
      scan char directive last (rest.dropWhile (· != '\n')) := by
  rw [scan.eq_def]
  rfl

/-- A slash that starts no comment. -/
theorem scan_slash {rest : List Char} (h : skipBlank ('/' :: rest) = '/' :: rest) :
    scan char directive last ('/' :: rest) = char '/' rest (scan char directive last rest) := by
  have hlength := congrArg List.length h
  rw [scan.eq_def]
  split
  · simp_all
  · -- a line comment would have been skipped
    rename_i more heq
    cases heq
    rw [skipBlank] at hlength
    have hle := length_skipBlank_le (more.dropWhile (· != '\n'))
    have hle' := length_dropWhile_le (· != '\n') more
    simp only [List.length_cons] at hlength
    omega
  · rename_i more heq
    cases heq
    split
    · -- and so would a block comment that is closed
      rename_i after hafter
      have hle := length_skipBlank_le after
      have hlt := length_afterComment?_lt hafter
      have hskip : skipBlank ('/' :: '*' :: more) = skipBlank after := by
        rw [skipBlank]
        split <;> simp_all
      rw [hskip] at hlength
      simp only [List.length_cons] at hlength
      omega
    · rfl
  · simp_all
  · rename_i heq
    cases heq
    rfl

theorem scan_hash (rest : List Char) :
    scan char directive last ('#' :: rest) =
      directive ('#' :: rest.takeWhile (· != '\n'))
        (scan char directive last (rest.dropWhile (· != '\n'))) := by
  rw [scan.eq_def]
  rfl

/-- The text of a directive, up to the end of its line. -/
theorem scan_line {line rest : List Char} (h : '\n' ∉ line) :
    scan char directive last ('#' :: line ++ '\n' :: rest) =
      directive ('#' :: line) (scan char directive last ('\n' :: rest)) := by
  have hline : ∀ c ∈ line, (c != '\n') = true := by
    intro c hc
    rw [bne_iff_ne]
    rintro rfl
    exact h hc
  rw [List.cons_append, scan_hash, List.takeWhile_append_of_pos hline,
    List.dropWhile_append_of_pos hline]
  simp

/-- Blanks and comments in front make no difference. -/
theorem scan_skipBlank (text : List Char) :
    scan char directive last (skipBlank text) = scan char directive last text := by
  fun_induction skipBlank text with
  | case1 => rfl
  | case2 rest ih => rw [ih, scan_lineComment]
  | case3 rest after hafter ih => rw [ih, scan_comment hafter]
  | case4 rest hafter => rfl
  | case5 c rest _ _ hblank ih => rw [ih, scan_space _ (isSpace_of_isBlank hblank)]
  | case6 c rest _ _ hblank => rfl

end Scan

/-! ### Tokens -/

theorem toNat_of_isPart {c : Char} (h : Word.isPart c = true) : 48 ≤ c.toNat ∧ c.toNat ≤ 122 := by
  simp only [Word.isPart, Char.isAlphanum, Bool.or_eq_true, isAlpha_iff, Char.isDigit,
    Bool.and_eq_true, decide_eq_true_eq, beq_iff_eq, ge_iff_le, UInt32.le_iff_toNat_le] at h
  have hval : c.toNat = c.val.toNat := rfl
  rcases h with ((⟨h1, h2⟩ | ⟨h1, h2⟩) | ⟨h1, h2⟩) | rfl
  · have := Nat.le_trans (by decide : 48 ≤ 'A'.val.toNat) h1
    have := Nat.le_trans h2 (by decide : 'Z'.val.toNat ≤ 122)
    omega
  · have := Nat.le_trans (by decide : 48 ≤ 'a'.val.toNat) h1
    have := Nat.le_trans h2 (by decide : 'z'.val.toNat ≤ 122)
    omega
  · have := Nat.le_trans (by decide : 48 ≤ (48:UInt32).toNat) h1
    have := Nat.le_trans h2 (by decide : (57:UInt32).toNat ≤ 122)
    omega
  · decide

theorem isPlain_of_isPart {c : Char} (h : Word.isPart c = true) : isPlain c = true := by
  obtain ⟨hlow, hhigh⟩ := toNat_of_isPart h
  have hspace : isSpace c = false := by
    simp only [isSpace, Bool.or_eq_false_iff, Bool.and_eq_false_iff, decide_eq_false_iff_not,
      beq_eq_false_iff_ne]
    omega
  have hslash : c ≠ '/' := by
    rintro rfl
    exact absurd hlow (by decide)
  have hhash : c ≠ '#' := by
    rintro rfl
    exact absurd hlow (by decide)
  simp [isPlain, hspace, hslash, hhash]

/-- The characters without parentheses. -/
def bared (chars : List Char) : List Char :=
  chars.filter fun c => !isParenthesis c

theorem bared_append (chars others : List Char) :
    bared (chars ++ others) = bared chars ++ bared others :=
  List.filter_append chars others

/-- The characters of a token that the scan copies, apart from parentheses. A slash has to be
followed by something that makes no comment of it. -/
def PlainToken (chars : List Char) : Prop :=
  chars = ['/', '='] ∨ ∀ c ∈ chars, isPlain c = true

theorem scan_slashEquals {α : Type} {char : Char → List Char → α → α}
    {directive : List Char → α → α} {last : α} (rest : List Char) :
    scan char directive last ('/' :: '=' :: rest) =
      char '/' ('=' :: rest) (char '=' rest (scan char directive last rest)) := by
  rw [scan_slash (skipBlank_slash (Reader.stops_cons.mpr rfl)), scan_plain rest rfl]

theorem stripped_plain {c : Char} (rest : List Char) (h : isPlain c = true) :
    stripped (c :: rest) = bared [c] ++ stripped rest := by
  rw [stripped, scan_plain rest h]
  cases hc : isParenthesis c <;> simp [bared, hc]

theorem stripped_token {chars : List Char} (rest : List Char) (h : PlainToken chars) :
    stripped (chars ++ rest) = bared chars ++ stripped rest := by
  rcases h with rfl | h
  · exact scan_slashEquals rest
  · induction chars with
    | nil => rfl
    | cons c chars ih =>
      rw [List.cons_append, stripped_plain _ (h c List.mem_cons_self),
        ih fun d hd => h d (List.mem_cons_of_mem _ hd), ← List.append_assoc, ← bared_append]
      rfl

theorem hasVoidList_plain {c : Char} (rest : List Char) (h : isPlain c = true) :
    hasVoidList (c :: rest) = (c == '(' && startsVoidList rest || hasVoidList rest) := by
  rw [hasVoidList, scan_plain rest h]

theorem hasVoidList_token {chars rest : List Char} (h : PlainToken chars)
    (hvoid : hasVoidList (chars ++ rest) = false) : hasVoidList rest = false := by
  rcases h with rfl | h
  · rwa [hasVoidList, List.cons_append, List.cons_append, scan_slashEquals] at hvoid
  · induction chars with
    | nil => exact hvoid
    | cons c chars ih =>
      rw [List.cons_append, hasVoidList_plain _ (h c List.mem_cons_self),
        Bool.or_eq_false_iff] at hvoid
      exact ih hvoid.2 fun d hd => h d (List.mem_cons_of_mem _ hd)

end GlslShrink.Text
