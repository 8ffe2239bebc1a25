import GlslShrink.Proofs.Naming.Generator
import Mathlib.Data.Set.Function

/-!
The numbering of short names leaves out no word and has none twice. The characters after the first
one are the digits of a number in a base of 62 without a zero: every digit stands for one more than
its place in the alphabet, so that each word has a number of its own (`tailNumber`), also where the
words get longer. The first character is a digit in base 52 in front of them (`number`).
-/

set_option autoImplicit false

namespace GlslShrink.ShortName

/-! ### The words that are numbered -/

/-- Whether a word is a letter that letters and digits follow. -/
def isShort (word : String) : Bool :=
  match word.toList with
  | [] => false
  | first :: others => first.isAlpha && others.all Char.isAlphanum

theorem toNat_lt_of_isAlphanum {c : Char} (h : c.isAlphanum = true) : c.toNat < 128 := by
  have hbounds : c.val.toNat ≤ 'z'.val.toNat := by
    simp only [Char.isAlphanum, isAlpha_iff, Char.isDigit, Bool.or_eq_true, Bool.and_eq_true,
      decide_eq_true_eq, UInt32.le_iff_toNat_le] at h
    have hupper : 'Z'.val.toNat ≤ 'z'.val.toNat := by decide
    have hdigit : '9'.val.toNat ≤ 'z'.val.toNat := by decide
    omega
  exact Nat.lt_of_le_of_lt hbounds (by decide)

theorem mem_letters_digits_iff {c : Char} : c ∈ letters ++ digits ↔ c.isAlphanum = true := by
  refine ⟨fun h => ?_, fun h => ?_⟩
  · have hall : ∀ d ∈ letters ++ digits, d.isAlphanum = true := forall_mem_of_all (by decide)
    exact hall c h
  · have hall : ∀ n ∈ List.range 128, (Char.ofNat n).isAlphanum = true →
        Char.ofNat n ∈ letters ++ digits := forall_mem_of_all (by decide +kernel)
    have hc := hall c.toNat (List.mem_range.mpr (toNat_lt_of_isAlphanum h))
    rw [Char.ofNat_toNat] at hc
    exact hc h

theorem mem_letters_iff {c : Char} : c ∈ letters ↔ c.isAlpha = true := by
  refine ⟨fun h => ?_, fun h => ?_⟩
  · have hall : ∀ d ∈ letters, d.isAlpha = true := forall_mem_of_all (by decide)
    exact hall c h
  · have hc : c ∈ letters ++ digits := mem_letters_digits_iff.mpr (by simp [Char.isAlphanum, h])
    have hall : ∀ d ∈ digits, d.isAlpha = false := forall_mem_of_all (by decide)
    refine (List.mem_append.mp hc).resolve_right fun hdigit => ?_
    cases h.symm.trans (hall c hdigit)

theorem isShort_iff {word : String} : isShort word = true ↔
    ∃ first others, word.toList = first :: others ∧ first ∈ letters ∧
      ∀ c ∈ others, c ∈ letters ++ digits := by
  rw [isShort]
  cases word.toList with
  | nil => simp
  | cons first others =>
    simp only [Bool.and_eq_true, List.all_eq_true, mem_letters_iff, mem_letters_digits_iff,
      List.cons.injEq]
    refine ⟨fun h => ⟨first, others, ⟨rfl, rfl⟩, h⟩, ?_⟩
    rintro ⟨_, _, ⟨rfl, rfl⟩, h⟩
    exact h

/-! ### The number of a word -/

theorem pick_idxOf {alphabet : List Char} {c : Char} (h : c ∈ alphabet) :
    pick alphabet (alphabet.idxOf c) = c := by
  rw [pick_eq (List.idxOf_lt_length_of_mem h), List.getElem_idxOf]

/-- The number of the characters after the first one. -/
def tailNumber : List Char → Nat
  | [] => 0
  | c :: rest => (letters ++ digits).idxOf c + 62 * tailNumber rest + 1

/-- The number of a short name. -/
def number : List Char → Nat
  | [] => 0
  | first :: others => letters.idxOf first + 52 * tailNumber others

theorem tail_tailNumber {text : List Char} (h : ∀ c ∈ text, c ∈ letters ++ digits) :
    tail (tailNumber text) = text := by
  induction text with
  | nil => rw [tailNumber, tail]
  | cons c rest ih =>
    obtain ⟨hc, hrest⟩ := List.forall_mem_cons.mp h
    have hlt : (letters ++ digits).idxOf c < 62 := List.idxOf_lt_length_of_mem hc
    have hdigit : ((letters ++ digits).idxOf c + 62 * tailNumber rest) % 62 =
        (letters ++ digits).idxOf c := by omega
    have hothers : ((letters ++ digits).idxOf c + 62 * tailNumber rest) / 62 =
        tailNumber rest := by omega
    rw [tailNumber, tail, hdigit, hothers, pick_idxOf hc, ih hrest]

theorem chars_number {first : Char} {others : List Char} (hfirst : first ∈ letters)
    (hothers : ∀ c ∈ others, c ∈ letters ++ digits) :
    chars (number (first :: others)) = first :: others := by
  have hlt : letters.idxOf first < 52 := List.idxOf_lt_length_of_mem hfirst
  have hdigit : number (first :: others) % 52 = letters.idxOf first := by
    rw [number]
    omega
  have htail : number (first :: others) / 52 = tailNumber others := by
    rw [number]
    omega
  rw [chars, hdigit, htail, pick_idxOf hfirst, tail_tailNumber hothers]

/-- The short names are the words of a letter and letters and digits after it, each with one
number. -/
theorem bijOn_plain : Set.BijOn plain Set.univ {word | isShort word = true} := by
  refine ⟨fun n _ => ?_, fun m _ n _ h => chars_inj (String.ofList_injective h), ?_⟩
  · obtain ⟨first, others, hchars, hfirst, hothers⟩ := chars_eq n
    exact isShort_iff.mpr ⟨first, others, by rw [plain, String.toList_ofList, hchars],
      hfirst, hothers⟩
  · intro word hword
    obtain ⟨first, others, hchars, hfirst, hothers⟩ := isShort_iff.mp hword
    refine ⟨number word.toList, Set.mem_univ _, ?_⟩
    rw [plain, hchars, chars_number hfirst hothers, ← hchars, String.ofList_toList]

example : plain (52 * 62 + 51) = "Z9" ∧ plain (52 * 63) = "aaa" ∧ number ['Z', '9'] = 3275 := by
  decide +kernel

/-! ### The length of a word -/

theorem length_tail_mono {m n : Nat} (h : m ≤ n) : (tail m).length ≤ (tail n).length := by
  fun_induction tail m generalizing n with
  | case1 => exact Nat.zero_le _
  | case2 m ih =>
    cases n with
    | zero => exact absurd h (Nat.not_succ_le_zero m)
    | succ n =>
      rw [tail, List.length_cons, List.length_cons]
      exact Nat.succ_le_succ (ih (Nat.div_le_div_right (Nat.le_of_succ_le_succ h)))

theorem length_plain (n : Nat) : (plain n).length = (tail (n / 52)).length + 1 := by
  rw [plain, String.length_ofList, chars, List.length_cons]

/-- Names of one length come before longer ones. -/
theorem length_plain_mono {m n : Nat} (h : m ≤ n) : (plain m).length ≤ (plain n).length := by
  rw [length_plain, length_plain]
  exact Nat.succ_le_succ (length_tail_mono (Nat.div_le_div_right h))

/-! ### Underscores -/

/-- The word has a form that is kept for the language: two underscores stand side by side, or it
starts like the built-in names. -/
def KeptForm (word : String) : Prop :=
  ['_', '_'] <:+: word.toList ∨ ['g', 'l', '_'] <+: word.toList

theorem underscore_not_mem_chars (n : Nat) : '_' ∉ chars n :=
  fun h => underscore_not_mem (mem_chars n '_' h)

theorem not_keptForm_plain (n : Nat) : ¬ KeptForm (plain n) := by
  rw [KeptForm, plain, String.toList_ofList]
  rintro (h | h)
  · exact underscore_not_mem_chars n (h.subset (by decide))
  · exact underscore_not_mem_chars n (h.subset (by decide))

theorem not_keptForm_definition (n : Nat) : ¬ KeptForm (definition n) := by
  rw [KeptForm, definition, String.toList_ofList]
  rintro (h | h)
  · have hcount : (2 : Nat) ≤ ('_' :: chars n).count '_' := h.sublist.count_le '_'
    rw [List.count_cons_self, List.count_eq_zero.mpr (underscore_not_mem_chars n)] at hcount
    exact absurd hcount (by decide)
  · have hhead := (List.cons_prefix_cons.mp h).1
    exact absurd hhead (by decide)

/-- Short names number all words of a letter and letters and digits after it, the shorter ones
first; the names of definitions are numbered apart from them, and no name of either kind has a form
that is kept for the language. -/
theorem plain_numbers_all_words :
    Set.BijOn plain Set.univ {word | isShort word = true} ∧
      (∀ i j, i ≤ j → (plain i).length ≤ (plain j).length) ∧
      Function.Injective definition ∧ (∀ i j, plain i ≠ definition j) ∧
      ∀ i, ¬ KeptForm (plain i) ∧ ¬ KeptForm (definition i) := by
  refine ⟨bijOn_plain, fun i j h => length_plain_mono h, numbering_definition.injective,
    plain_ne_definition, fun i => ?_⟩
  exact ⟨not_keptForm_plain i, not_keptForm_definition i⟩

end GlslShrink.ShortName
