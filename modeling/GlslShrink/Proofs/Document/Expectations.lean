import GlslShrink.Expectation
import GlslShrink.Proofs.Text.Lines
import Mathlib.Data.List.TakeWhile

/-!
What becomes of the lines of a file with expectations. A line that starts with a semicolon says what
is expected (`isExpectation`, `saying`), and a line is blank if it is all white space. After the
line that names the test (`NamesTest`) there are blank lines, then blocks, each a run of input lines
with the expectation lines after it, and in the end a run of input lines of which nothing is
expected (`Layout`). All lines can be put into such a layout, and the cases of the file are its
blocks: each with the input lines as its source, the place of the first of them as its line, and the
texts of its expectation lines (`ofFile_eq_blocks`).
-/

set_option autoImplicit false

namespace GlslShrink.Expectation

open Text

/-! ### Lines -/

/-- Whether a line says what is expected. -/
def isExpectation (line : List Char) : Bool :=
  line.head? == some ';'

/-- What such a line says: the text after the semicolon and one space, if there is one, without the
white space at its end. -/
def saying (line : List Char) : List Char :=
  (if line.tail.head? = some ' ' then line.tail.tail else line.tail).rdropWhile isSpace

def isBlankLine (line : List Char) : Bool :=
  line.all isSpace

/-- The line, without the white space around it, is a command that names a test. -/
def NamesTest (line command : List Char) : Prop :=
  Trimmed line command ∧ "test ".toList <+: command

/-- Whether a line belongs to the expectations of a case or to nothing. -/
def isMark (line : List Char) : Bool :=
  isExpectation line || isBlankLine line

section Lines

variable {line : List Char}

theorem isMark_eq_false :
    isMark line = false ↔ isExpectation line = false ∧ isBlankLine line = false :=
  Bool.or_eq_false_iff

/-- Exactly the lines that start with a semicolon have a text. -/
theorem expectedText?_eq (line : List Char) :
    expectedText? line = if isExpectation line then some (saying line) else none := by
  unfold expectedText?
  split
  · rfl
  · next rest hspace =>
    have hhead : rest.head? ≠ some ' ' := by
      intro hhead
      obtain ⟨others, rfl⟩ := List.head?_eq_some_iff.mp hhead
      exact hspace others rfl
    have hopen : isExpectation (';' :: rest) = true := rfl
    rw [if_pos hopen, saying, List.tail_cons, if_neg hhead]
    rfl
  · next hother =>
    rw [if_neg]
    intro hopen
    obtain ⟨rest, rfl⟩ := List.head?_eq_some_iff.mp (beq_iff_eq.mp hopen)
    exact hother rest rfl

theorem expectedText?_eq_some (h : isExpectation line = true) :
    expectedText? line = some (saying line) := by
  rw [expectedText?_eq, if_pos h]

theorem expectedText?_eq_none (h : isExpectation line = false) : expectedText? line = none := by
  rw [expectedText?_eq, h, if_neg Bool.false_ne_true]

theorem isEmpty_trim (line : List Char) : (trim line).isEmpty = isBlankLine line := by
  rw [Bool.eq_iff_iff, List.isEmpty_iff, trim_eq_nil_iff, isBlankLine, List.all_eq_true]

/-- A line that starts with a semicolon is not blank. -/
theorem isExpectation_of_isBlankLine (h : isBlankLine line = true) :
    isExpectation line = false := by
  refine Bool.eq_false_iff.mpr fun hopen => ?_
  obtain ⟨rest, rfl⟩ := List.head?_eq_some_iff.mp (beq_iff_eq.mp hopen)
  exact absurd (List.all_eq_true.mp h ';' List.mem_cons_self) (by decide)

theorem isCommand_iff : isCommand line = true ↔ ∃ command, NamesTest line command := by
  rw [isCommand, startsWith_iff]
  constructor
  · exact fun hstart => ⟨trim line, trimmed_trim line, hstart⟩
  · rintro ⟨command, htrimmed, hstart⟩
    exact htrimmed.eq_trim ▸ hstart

theorem isCommand_eq_false_iff :
    isCommand line = false ↔ ∀ command, ¬ NamesTest line command := by
  rw [← Bool.not_eq_true, isCommand_iff, not_exists]

end Lines

/-! ### Layouts -/

/-- A run of input lines and the lines after it up to the next input line. -/
structure Block where
  input : List (List Char)
  marks : List (List Char)

namespace Block

def lines (block : Block) : List (List Char) :=
  block.input ++ block.marks

/-- The expectation lines. -/
def expectations (block : Block) : List (List Char) :=
  block.marks.filter isExpectation

/-- No input line is an expectation and the first one is not blank. The other lines start with an
expectation, and the rest of them are expectations or blank. -/
structure Proper (block : Block) : Prop where
  input : ∀ line ∈ block.input, isExpectation line = false
  starts : ∀ line ∈ block.input.head?, isBlankLine line = false
  marks : ∀ line ∈ block.marks, isMark line = true
  opens : ∃ line ∈ block.marks.head?, isExpectation line = true

/-- The case of a block that starts after the given number of lines. A case without input has the
first line of the file. -/
def caseAt (command : String) (index : Nat) (block : Block) : Expectation where
  command := command
  source := "\n".intercalate (block.input.map String.ofList)
  expected := "\n".intercalate (block.expectations.map fun line => String.ofList (saying line))
  line := if block.input = [] then 1 else index + 1

/-- The cases of blocks, the first of which starts after the given number of lines. -/
def casesAt (command : String) (index : Nat) : List Block → List Expectation
  | [] => []
  | block :: blocks =>
    block.caseAt command index :: casesAt command (index + block.lines.length) blocks

end Block

/-- The lines after the one that names the test: blank lines, blocks, and input lines of which
nothing is expected. Only the first block may lack input. -/
structure Layout (lines blanks : List (List Char)) (blocks : List Block)
    (unused : List (List Char)) : Prop where
  lines_eq : lines = blanks ++ blocks.flatMap Block.lines ++ unused
  blank : ∀ line ∈ blanks, isBlankLine line = true
  proper : ∀ block ∈ blocks, block.Proper
  input : ∀ block ∈ blocks.tail, block.input ≠ []
  unexpected : ∀ line ∈ unused, isExpectation line = false
  starts : ∀ line ∈ unused.head?, isBlankLine line = false

/-- The lines are none or start with input. -/
def StartsInput (lines : List (List Char)) : Prop :=
  ∀ line ∈ lines.head?, isMark line = false

/-- The lines up to the first one that fails a test. -/
theorem exists_span (test : List Char → Bool) (lines : List (List Char)) :
    ∃ front rest, lines = front ++ rest ∧ (∀ line ∈ front, test line = true) ∧
      ∀ line ∈ rest.head?, test line = false := by
  refine ⟨lines.takeWhile test, lines.dropWhile test, List.takeWhile_append_dropWhile.symm,
    fun _ => List.mem_takeWhile_imp, fun line hline => ?_⟩
  have hhead := List.head?_dropWhile_not test lines
  rw [Option.mem_def] at hline
  rw [hline] at hhead
  exact hhead

/-- From an expectation on, the lines up to the next input line. -/
theorem exists_marks {line : List Char} (lines : List (List Char))
    (h : isExpectation line = true) :
    ∃ marks rest, line :: lines = marks ++ rest ∧ StartsInput rest ∧ rest.length ≤ lines.length ∧
      (∀ mark ∈ marks, isMark mark = true) ∧ ∃ mark ∈ marks.head?, isExpectation mark = true := by
  obtain ⟨marks, rest, rfl, hmarks, hrest⟩ := exists_span isMark lines
  refine ⟨line :: marks, rest, rfl, hrest, ?_, ?_, line, rfl, h⟩
  · rw [List.length_append]
    exact Nat.le_add_left _ _
  · exact List.forall_mem_cons.mpr ⟨Bool.or_eq_true_iff.mpr (Or.inl h), hmarks⟩

/-- Lines that start with input are blocks with input and then input of which nothing is expected. -/
theorem exists_blocks {lines : List (List Char)} (h : StartsInput lines) :
    ∃ (blocks : List Block) (unused : List (List Char)),
      lines = blocks.flatMap Block.lines ++ unused ∧
      (∀ block ∈ blocks, block.Proper ∧ block.input ≠ []) ∧
      (∀ line ∈ unused, isExpectation line = false) ∧
      ∀ line ∈ unused.head?, isBlankLine line = false := by
  -- every round puts at least one line into its block
  induction hn : lines.length using Nat.strongRecOn generalizing lines with
  | ind n ih =>
    subst hn
    obtain ⟨input, rest, rfl, hnot, hrest⟩ := exists_span (!isExpectation ·) lines
    have hinput : ∀ line ∈ input, isExpectation line = false := fun line hline =>
      Bool.not_eq_true' _ ▸ hnot line hline
    have hstarts : ∀ line ∈ input.head?, isBlankLine line = false := by
      intro line hline
      obtain ⟨others, rfl⟩ := List.head?_eq_some_iff.mp hline
      exact (isMark_eq_false.mp (h line rfl)).2
    cases rest with
    | nil =>
      rw [List.append_nil]
      exact ⟨[], input, rfl, List.forall_mem_nil _, hinput, hstarts⟩
    | cons line others =>
      have hopen : isExpectation line = true := Bool.not_eq_false' _ ▸ hrest line rfl
      have hne : input ≠ [] := by
        rintro rfl
        cases hopen.symm.trans (isMark_eq_false.mp (h line rfl)).1
      obtain ⟨marks, later, hmarks, hlater, hlength, hmark, hopens⟩ := exists_marks others hopen
      have hless : later.length < (input ++ line :: others).length := by
        rw [List.length_append, List.length_cons]
        omega
      obtain ⟨blocks, unused, rfl, hblocks, hunused⟩ := ih _ hless hlater rfl
      refine ⟨⟨input, marks⟩ :: blocks, unused, ?_, ?_, hunused⟩
      · rw [hmarks, List.flatMap_cons, Block.lines, List.append_assoc, List.append_assoc]
      · exact List.forall_mem_cons.mpr ⟨⟨⟨hinput, hstarts, hmark, hopens⟩, hne⟩, hblocks⟩

/-- All lines can be put into a layout. -/
theorem exists_layout (lines : List (List Char)) :
    ∃ blanks blocks unused, Layout lines blanks blocks unused := by
  obtain ⟨blanks, rest, rfl, hblanks, hrest⟩ := exists_span isBlankLine lines
  have hofBlocks : ∀ (first : List Block) (later : List (List Char)), first.length ≤ 1 →
      (∀ block ∈ first, block.Proper) → StartsInput later →
      rest = first.flatMap Block.lines ++ later →
      ∃ blanks' blocks unused, Layout (blanks ++ rest) blanks' blocks unused := by
    intro first later hfirst hproper hlater hparts
    obtain ⟨blocks, unused, rfl, hblocks, hunused, hstarts⟩ := exists_blocks hlater
    refine ⟨blanks, first ++ blocks, unused, ?_, hblanks, ?_, ?_, hunused, hstarts⟩
    · rw [hparts, List.flatMap_append, List.append_assoc, List.append_assoc]
    · exact List.forall_mem_append.mpr ⟨hproper, fun block hblock => (hblocks block hblock).1⟩
    · intro block hblock
      cases first with
      | nil => exact (hblocks block (List.mem_of_mem_tail hblock)).2
      | cons only others =>
        rw [List.length_eq_zero_iff.mp (Nat.le_zero.mp (Nat.le_of_succ_le_succ hfirst))] at hblock
        exact (hblocks block hblock).2
  cases rest with
  | nil => exact hofBlocks [] [] (Nat.zero_le 1) (List.forall_mem_nil _) (fun _ h => by cases h) rfl
  | cons line others =>
    cases hopen : isExpectation line with
    | false =>
      refine hofBlocks [] _ (Nat.zero_le 1) (List.forall_mem_nil _) (fun first hfirst => ?_) rfl
      cases hfirst
      exact isMark_eq_false.mpr ⟨hopen, hrest line rfl⟩
    | true =>
      obtain ⟨marks, later, hmarks, hlater, -, hmark, hopens⟩ := exists_marks others hopen
      refine hofBlocks [⟨[], marks⟩] later (Nat.le_refl 1) (List.forall_mem_singleton.mpr ?_) hlater
        (by rw [hmarks, List.flatMap_singleton]; rfl)
      exact ⟨List.forall_mem_nil _, fun _ h => (by cases h), hmark, hopens⟩

/-! ### The cases of a layout -/

section Cases

variable {command : String} {draft : Draft} {index : Nat} {line : List Char}

/-! #### One line -/

theorem casesFrom_expectation (lines : List (List Char)) (h : isExpectation line = true) :
    casesFrom command draft index (line :: lines) =
      casesFrom command (draft.addExpected (saying line)) (index + 1) lines := by
  rw [casesFrom, expectedText?_eq_some h]

theorem casesFrom_blank (lines : List (List Char)) (h : isBlankLine line = true)
    (hskips : draft.skipsBlank = true) :
    casesFrom command draft index (line :: lines) = casesFrom command draft (index + 1) lines := by
  rw [casesFrom, expectedText?_eq_none (isExpectation_of_isBlankLine h)]
  simp only [isEmpty_trim, h, hskips, Bool.and_self, if_true]

theorem casesFrom_source (lines : List (List Char)) (h : isExpectation line = false)
    (hkept : isBlankLine line = false ∨ draft.skipsBlank = false) (hexpected : draft.expected = []) :
    casesFrom command draft index (line :: lines) =
      casesFrom command (draft.addSource index line) (index + 1) lines := by
  have hand : ((trim line).isEmpty && draft.skipsBlank) = false := by
    rw [isEmpty_trim]
    exact Bool.and_eq_false_iff.mpr hkept
  rw [casesFrom, expectedText?_eq_none h]
  simp only [hand, hexpected, List.isEmpty_nil, if_true, Bool.false_eq_true, if_false]

/-- Input ends a case of which something is expected. -/
theorem casesFrom_next (lines : List (List Char)) (h : isMark line = false)
    (hexpected : draft.expected ≠ []) :
    casesFrom command draft index (line :: lines) = draft.finish command ::
      casesFrom command { start := draft.start } index (line :: lines) := by
  obtain ⟨hnone, hblank⟩ := isMark_eq_false.mp h
  have hfresh : casesFrom command { start := draft.start } index (line :: lines) =
      casesFrom command (({ start := draft.start } : Draft).addSource index line) (index + 1) lines :=
    casesFrom_source lines hnone (Or.inl hblank) rfl
  rw [hfresh, casesFrom, expectedText?_eq_none hnone]
  simp only [isEmpty_trim, hblank, List.isEmpty_eq_false_iff.mpr hexpected, Bool.false_and,
    Bool.false_eq_true, if_false]

/-! #### Runs of lines -/

theorem casesFrom_blanks {blanks : List (List Char)} (lines : List (List Char))
    (h : ∀ line ∈ blanks, isBlankLine line = true) (hskips : draft.skipsBlank = true) :
    casesFrom command draft index (blanks ++ lines) =
      casesFrom command draft (index + blanks.length) lines := by
  induction blanks generalizing index with
  | nil => rfl
  | cons line blanks ih =>
    obtain ⟨hline, hblanks⟩ := List.forall_mem_cons.mp h
    rw [List.cons_append, casesFrom_blank _ hline hskips, ih hblanks, List.length_cons,
      Nat.add_assoc, Nat.add_comm 1]

/-- Lines after the first line of the input are input, blank or not. -/
theorem casesFrom_input {run : List (List Char)} (lines : List (List Char))
    (h : ∀ line ∈ run, isExpectation line = false) (hsource : draft.source ≠ [])
    (hexpected : draft.expected = []) :
    casesFrom command draft index (run ++ lines) =
      casesFrom command { draft with source := draft.source ++ run } (index + run.length) lines := by
  induction run generalizing draft index with
  | nil => rw [List.append_nil]; rfl
  | cons line run ih =>
    obtain ⟨hline, hrun⟩ := List.forall_mem_cons.mp h
    have hopen : draft.source.isEmpty = false := List.isEmpty_eq_false_iff.mpr hsource
    have hkept : draft.skipsBlank = false := by
      rw [Draft.skipsBlank, hopen, hexpected]
      rfl
    have hadded : draft.addSource index line = { draft with source := draft.source ++ [line] } := by
      rw [Draft.addSource, hopen, if_neg Bool.false_ne_true]
    have hmore : casesFrom command { draft with source := draft.source ++ [line] } (index + 1)
        (run ++ lines) = casesFrom command { draft with source := draft.source ++ [line] ++ run }
        (index + 1 + run.length) lines :=
      ih hrun (List.append_ne_nil_of_right_ne_nil _ (List.cons_ne_nil _ _)) hexpected
    rw [List.cons_append, casesFrom_source _ hline (Or.inr hkept) hexpected, hadded, hmore,
      List.append_assoc, List.length_cons, Nat.add_assoc, Nat.add_comm 1]
    rfl

theorem casesFrom_marks {marks : List (List Char)} (lines : List (List Char))
    (h : ∀ line ∈ marks, isMark line = true) (hexpected : draft.expected ≠ []) :
    casesFrom command draft index (marks ++ lines) =
      casesFrom command
        { draft with expected := draft.expected ++ (marks.filter isExpectation).map saying }
        (index + marks.length) lines := by
  induction marks generalizing draft index with
  | nil => rw [List.filter_nil, List.map_nil, List.append_nil]; rfl
  | cons line marks ih =>
    obtain ⟨hline, hmarks⟩ := List.forall_mem_cons.mp h
    have hindex : index + 1 + marks.length = index + (line :: marks).length := by
      rw [List.length_cons]
      omega
    cases hopen : isExpectation line with
    | true =>
      rw [List.cons_append, casesFrom_expectation _ hopen, ih hmarks, hindex,
        List.filter_cons_of_pos hopen, List.map_cons, Draft.addExpected, List.append_assoc]
      · rfl
      · exact List.append_ne_nil_of_right_ne_nil _ (List.cons_ne_nil _ _)
    | false =>
      have hblank : isBlankLine line = true := by
        rwa [isMark, hopen, Bool.false_or] at hline
      have hskips : draft.skipsBlank = true := by
        rw [Draft.skipsBlank, List.isEmpty_eq_false_iff.mpr hexpected]
        exact Bool.or_true _
      rw [List.cons_append, casesFrom_blank _ hblank hskips, ih hmarks hexpected, hindex,
        List.filter_cons_of_neg (Bool.eq_false_iff.mp hopen)]

/-- A case of which something is expected ends where the next input starts, or with the file. -/
theorem casesFrom_finish {lines : List (List Char)} (h : StartsInput lines)
    (hexpected : draft.expected ≠ []) :
    casesFrom command draft index lines = draft.finish command ::
      casesFrom command { start := draft.start } index lines := by
  cases lines with
  | nil =>
    rw [casesFrom, casesFrom, Draft.finish?, List.isEmpty_eq_false_iff.mpr hexpected,
      if_neg Bool.false_ne_true]
    rfl
  | cons line lines => exact casesFrom_next lines (h line rfl) hexpected

/-! #### Blocks -/

theorem joined_eq (lines : List (List Char)) :
    Draft.joined lines = "\n".intercalate (lines.map String.ofList) := by
  have hchars : (lines.map String.ofList).map String.toList = lines := by
    rw [List.map_map]
    exact (List.map_congr_left fun _ _ => String.toList_ofList).trans (List.map_id lines)
  rw [← String.toList_inj, Draft.joined, String.toList_ofList, String.toList_intercalate, hchars]
  rfl

/-- The expectations of a block, after its input. -/
theorem casesFrom_expectations {block : Block} {lines : List (List Char)} (hblock : block.Proper)
    (hlines : StartsInput lines) (hexpected : draft.expected = []) :
    casesFrom command draft index (block.marks ++ lines) =
      { draft with expected := block.expectations.map saying }.finish command ::
        casesFrom command { start := draft.start } (index + block.marks.length) lines := by
  obtain ⟨line, hline, hopen⟩ := hblock.opens
  obtain ⟨marks, hmarks⟩ := List.head?_eq_some_iff.mp hline
  have hrest : ∀ mark ∈ marks, isMark mark = true := by
    intro mark hmark
    exact hblock.marks mark (hmarks ▸ List.mem_cons_of_mem line hmark)
  have hadded : (draft.addExpected (saying line)).expected ≠ [] :=
    List.append_ne_nil_of_right_ne_nil _ (List.cons_ne_nil _ _)
  have hall : (draft.addExpected (saying line)).expected ++
      (marks.filter isExpectation).map saying = block.expectations.map saying := by
    rw [Block.expectations, hmarks, List.filter_cons_of_pos hopen, Draft.addExpected, hexpected]
    rfl
  rw [hmarks, List.cons_append, casesFrom_expectation _ hopen, casesFrom_marks _ hrest hadded, hall,
    casesFrom_finish hlines, List.length_cons, Nat.add_assoc, Nat.add_comm 1]
  · rfl
  · rw [← hall]
    exact List.append_ne_nil_of_left_ne_nil hadded _

/-- What is put together from a block is its case. -/
theorem finish_eq_caseAt {block : Block} {start : Nat}
    (h : start + 1 = if block.input = [] then 1 else index + 1) :
    (Draft.mk block.input (block.expectations.map saying) start).finish command =
      block.caseAt command index := by
  rw [Draft.finish, Block.caseAt, joined_eq, joined_eq, List.map_map, h]
  rfl

/-- A block that starts with input is a case. -/
theorem casesFrom_block {block : Block} {lines : List (List Char)} {start : Nat}
    (hblock : block.Proper) (hinput : block.input ≠ []) (hlines : StartsInput lines) :
    casesFrom command { start := start } index (block.lines ++ lines) =
      block.caseAt command index ::
        casesFrom command { start := index } (index + block.lines.length) lines := by
  obtain ⟨line, run, hrun⟩ := List.exists_cons_of_ne_nil hinput
  obtain ⟨hline, hothers⟩ := List.forall_mem_cons.mp (hrun ▸ hblock.input)
  have hblank : isBlankLine line = false := hblock.starts line (by rw [hrun]; rfl)
  have hfirst : casesFrom command { start := start } index (block.lines ++ lines) =
      casesFrom command { source := [line], start := index } (index + 1)
        (run ++ (block.marks ++ lines)) := by
    rw [Block.lines, hrun, List.append_assoc, List.cons_append,
      casesFrom_source _ hline (Or.inl hblank) rfl]
    rfl
  have hinputs : casesFrom command { source := [line], start := index } (index + 1)
      (run ++ (block.marks ++ lines)) = casesFrom command { source := block.input, start := index }
        (index + 1 + run.length) (block.marks ++ lines) := by
    rw [hrun]
    exact casesFrom_input _ hothers (List.cons_ne_nil _ _) rfl
  have hlength : index + 1 + run.length + block.marks.length = index + block.lines.length := by
    rw [Block.lines, hrun, List.length_append, List.length_cons]
    omega
  rw [hfirst, hinputs, casesFrom_expectations hblock hlines rfl, hlength,
    finish_eq_caseAt (by rw [if_neg hinput])]

/-- Input of which nothing is expected is no case. -/
theorem casesFrom_unused {unused : List (List Char)} {start : Nat}
    (h : ∀ line ∈ unused, isExpectation line = false)
    (hstarts : ∀ line ∈ unused.head?, isBlankLine line = false) :
    casesFrom command { start := start } index unused = [] := by
  cases unused with
  | nil => rfl
  | cons line run =>
    obtain ⟨hline, hrun⟩ := List.forall_mem_cons.mp h
    have hinput := @casesFrom_input command (({ start := start } : Draft).addSource index line)
      (index + 1) run [] hrun (List.cons_ne_nil _ _) rfl
    rw [List.append_nil] at hinput
    rw [casesFrom_source run hline (Or.inl (hstarts line rfl)) rfl, hinput]
    rfl

theorem startsInput_blocks {blocks : List Block} {unused : List (List Char)}
    (hblocks : ∀ block ∈ blocks, block.Proper ∧ block.input ≠ [])
    (hunused : ∀ line ∈ unused, isExpectation line = false)
    (hstarts : ∀ line ∈ unused.head?, isBlankLine line = false) :
    StartsInput (blocks.flatMap Block.lines ++ unused) := by
  intro line hline
  cases blocks with
  | nil => exact isMark_eq_false.mpr ⟨hunused line (List.mem_of_mem_head? hline), hstarts line hline⟩
  | cons block blocks =>
    obtain ⟨⟨hproper, hinput⟩, -⟩ := List.forall_mem_cons.mp hblocks
    obtain ⟨first, run, hrun⟩ := List.exists_cons_of_ne_nil hinput
    rw [List.flatMap_cons, Block.lines, hrun] at hline
    cases hline
    exact isMark_eq_false.mpr ⟨hproper.input line (hrun ▸ List.mem_cons_self),
      hproper.starts line (by rw [hrun]; rfl)⟩

theorem casesFrom_blocks {blocks : List Block} {unused : List (List Char)} {start : Nat}
    (hblocks : ∀ block ∈ blocks, block.Proper ∧ block.input ≠ [])
    (hunused : ∀ line ∈ unused, isExpectation line = false)
    (hstarts : ∀ line ∈ unused.head?, isBlankLine line = false) :
    casesFrom command { start := start } index (blocks.flatMap Block.lines ++ unused) =
      Block.casesAt command index blocks := by
  induction blocks generalizing start index with
  | nil => exact casesFrom_unused hunused hstarts
  | cons block blocks ih =>
    obtain ⟨⟨hproper, hinput⟩, hothers⟩ := List.forall_mem_cons.mp hblocks
    rw [List.flatMap_cons, List.append_assoc,
      casesFrom_block hproper hinput (startsInput_blocks hothers hunused hstarts), ih hothers]
    rfl

/-- The cases of a layout are its blocks. -/
theorem casesFrom_layout {lines blanks unused : List (List Char)} {blocks : List Block}
    (h : Layout lines blanks blocks unused) :
    casesFrom command {} index lines = Block.casesAt command (index + blanks.length) blocks := by
  rw [h.lines_eq, List.append_assoc, casesFrom_blanks _ h.blank rfl]
  cases blocks with
  | nil => exact casesFrom_unused h.unexpected h.starts
  | cons block blocks =>
    have hblocks : ∀ other ∈ blocks, other.Proper ∧ other.input ≠ [] := fun other hother =>
      ⟨h.proper other (List.mem_cons_of_mem block hother), h.input other hother⟩
    have hproper := h.proper block List.mem_cons_self
    have hlater := startsInput_blocks hblocks h.unexpected h.starts
    rw [List.flatMap_cons, List.append_assoc]
    by_cases hinput : block.input = []
    · have hcase : (Draft.mk [] (block.expectations.map saying) 0).finish command =
          block.caseAt command (index + blanks.length) :=
        hinput ▸ finish_eq_caseAt (by rw [if_pos hinput])
      rw [Block.lines, hinput, List.nil_append, casesFrom_expectations hproper hlater rfl, hcase,
        casesFrom_blocks hblocks h.unexpected h.starts, Block.casesAt, Block.lines, hinput]
      rfl
    · rw [casesFrom_block hproper hinput hlater, casesFrom_blocks hblocks h.unexpected h.starts]
      rfl

end Cases

/-! ### Files -/

theorem casesAfterCommand_append {head : List (List Char)} (index : Nat) (rest : List (List Char))
    (h : ∀ line ∈ head, isCommand line = false) :
    casesAfterCommand index (head ++ rest) = casesAfterCommand (index + head.length) rest := by
  induction head generalizing index with
  | nil => rfl
  | cons line head ih =>
    obtain ⟨hline, hhead⟩ := List.forall_mem_cons.mp h
    rw [List.cons_append, casesAfterCommand, hline, if_neg Bool.false_ne_true, ih _ hhead,
      List.length_cons, Nat.add_assoc, Nat.add_comm 1]

/-- Each case is the one of its block, after the lines of the blocks before it. -/
theorem Block.getElem?_casesAt (command : String) (index i : Nat) (blocks : List Block) :
    (casesAt command index blocks)[i]? =
      blocks[i]?.map (caseAt command (index + ((blocks.take i).flatMap lines).length)) := by
  induction blocks generalizing index i with
  | nil => rfl
  | cons block blocks ih =>
    cases i with
    | zero => rfl
    | succ i =>
      rw [casesAt, List.getElem?_cons_succ, List.getElem?_cons_succ, ih, List.take_succ_cons,
        List.flatMap_cons, List.length_append, Nat.add_assoc]

@[simp]
theorem Block.length_casesAt (command : String) (index : Nat) (blocks : List Block) :
    (casesAt command index blocks).length = blocks.length := by
  induction blocks generalizing index with
  | nil => rfl
  | cons block blocks ih => rw [casesAt, List.length_cons, ih, List.length_cons]

/-- All expectation lines are in blocks. -/
theorem Layout.filter_isExpectation {lines blanks unused : List (List Char)}
    {blocks : List Block} (h : Layout lines blanks blocks unused) :
    lines.filter isExpectation = blocks.flatMap Block.expectations := by
  have hnone : ∀ {others : List (List Char)}, (∀ line ∈ others, isExpectation line = false) →
      others.filter isExpectation = [] := by
    intro others hothers
    exact List.filter_eq_nil_iff.mpr fun line hline => Bool.eq_false_iff.mp (hothers line hline)
  rw [h.lines_eq, List.filter_append, List.filter_append, hnone h.unexpected,
    hnone fun line hline => isExpectation_of_isBlankLine (h.blank line hline), List.append_nil,
    List.nil_append, List.filter_flatMap]
  refine List.flatMap_congr fun block hblock => ?_
  rw [Block.lines, List.filter_append, hnone (h.proper block hblock).input, List.nil_append]
  rfl

/-- The lines of a file around its first command line, and its cases. -/
theorem ofFile_of_command {content : String} {head rest : List (List Char)} {command : List Char}
    (hlines : lines content.toList = head ++ command :: rest)
    (hhead : ∀ line ∈ head, isCommand line = false) (hcommand : isCommand command = true) :
    ofFile content = casesFrom (String.ofList (trim command)) {} (head.length + 1) rest := by
  rw [ofFile, hlines, casesAfterCommand_append 0 _ hhead, casesAfterCommand, hcommand, if_pos rfl,
    Nat.zero_add]

/-- The case of a block with input stands at the first of its lines in the file. -/
theorem Layout.lines_at {file head rest blanks unused : List (List Char)} {blocks : List Block}
    {first : List Char} (h : Layout rest blanks blocks unused) (hfile : file = head ++ first :: rest)
    {command : String} {i : Nat} {block : Block} (hblock : blocks[i]? = some block)
    (hinput : block.input ≠ []) :
    ∃ found, (Block.casesAt command (head.length + 1 + blanks.length) blocks)[i]? = some found ∧
      block.lines <+: file.drop (found.line - 1) := by
  have hi := (List.getElem?_eq_some_iff.mp hblock).1
  have hsplit : blocks = blocks.take i ++ block :: blocks.drop (i + 1) := by
    rw [← (List.getElem?_eq_some_iff.mp hblock).2, ← List.drop_eq_getElem_cons hi,
      List.take_append_drop]
  have hparts : file = (head ++ first :: blanks ++ (blocks.take i).flatMap Block.lines) ++
      (block.lines ++ ((blocks.drop (i + 1)).flatMap Block.lines ++ unused)) := by
    rw [hfile, h.lines_eq]
    nth_rewrite 1 [hsplit]
    simp only [List.flatMap_append, List.flatMap_cons, List.append_assoc, List.cons_append]
  refine ⟨_, (Block.getElem?_casesAt _ _ _ _).trans (congrArg _ hblock), ?_⟩
  have hplace : (block.caseAt command
      (head.length + 1 + blanks.length + ((blocks.take i).flatMap Block.lines).length)).line - 1 =
      (head ++ first :: blanks ++ (blocks.take i).flatMap Block.lines).length := by
    simp only [Block.caseAt, if_neg hinput, List.length_append, List.length_cons]
    omega
  rw [hplace, hparts, List.drop_left]
  exact List.prefix_append _ _

/-- The lines after the first one that names a test are blank lines, blocks, and input of which
nothing is expected. The cases of the file are the blocks in order: every line that starts with a
semicolon counts for exactly one of them, and the source of each is a run of lines of the file, of
which it has the place. -/
theorem ofFile_eq_blocks (content : String) :
    ∃ file, Lined content.toList file ∧
      (((∀ line ∈ file, ∀ command, ¬ NamesTest line command) ∧ ofFile content = []) ∨
      ∃ head first rest command blanks blocks unused,
        file = head ++ first :: rest ∧
        (∀ line ∈ head, ∀ command, ¬ NamesTest line command) ∧ NamesTest first command ∧
        Layout rest blanks blocks unused ∧
        ofFile content = Block.casesAt (String.ofList command)
          (head.length + 1 + blanks.length) blocks ∧
        rest.filter isExpectation = blocks.flatMap Block.expectations ∧
        ∀ (i : Nat) (block : Block), blocks[i]? = some block → block.input ≠ [] →
          ∃ found, (ofFile content)[i]? = some found ∧
            block.lines <+: file.drop (found.line - 1)) := by
  refine ⟨lines content.toList, lined_lines _, ?_⟩
  obtain ⟨head, others, hlines, hnot, hothers⟩ := exists_span (!isCommand ·) (lines content.toList)
  have hhead : ∀ line ∈ head, isCommand line = false := fun line hline =>
    Bool.not_eq_true' _ ▸ hnot line hline
  have hunnamed : ∀ line ∈ head, ∀ command, ¬ NamesTest line command := fun line hline =>
    isCommand_eq_false_iff.mp (hhead line hline)
  cases others with
  | nil =>
    rw [List.append_nil] at hlines
    refine Or.inl ⟨hlines ▸ hunnamed, ?_⟩
    have hcases := casesAfterCommand_append 0 [] hhead
    rw [List.append_nil] at hcases
    rw [ofFile, hlines, hcases]
    rfl
  | cons first rest =>
    have hfirst : isCommand first = true := Bool.not_eq_false' _ ▸ hothers first rfl
    obtain ⟨command, hcommand⟩ := isCommand_iff.mp hfirst
    obtain ⟨blanks, blocks, unused, hlayout⟩ := exists_layout rest
    have hcases := ofFile_of_command hlines hhead hfirst
    rw [← hcommand.1.eq_trim, casesFrom_layout hlayout] at hcases
    refine Or.inr ⟨head, first, rest, command, blanks, blocks, unused, hlines, hunnamed, hcommand,
      hlayout, hcases, hlayout.filter_isExpectation, fun i block hblock hinput => ?_⟩
    rw [hcases]
    exact hlayout.lines_at hlines hblock hinput

/-- A file with a line in front of the command, a first case without input, an indented semicolon
and a blank line in the input, a blank line among expectations, and input after the last of them. -/
def assorted : String :=
  "notes\n\ttest cat \r\n\n; first \n \n" ++
    "void main()\x7b\n ;\n\n\x7d\r\n;  a;\t\n\n;b\n" ++ "int x;\n;\nint y;\n"

/-- Its first case has no input, the second one all lines from the sixth to the ninth. -/
theorem ofFile_eq_blocks_assorted :
    ofFile assorted =
        [⟨"test cat", "", "first", 1⟩, ⟨"test cat", "void main()\x7b\n ;\n\n\x7d", " a;\nb", 6⟩,
          ⟨"test cat", "int x;", "", 13⟩] ∧
      ∃ file head first rest blanks blocks unused, Lined assorted.toList file ∧
        file = head ++ first :: rest ∧ Layout rest blanks blocks unused ∧ blocks.length = 3 ∧
        rest.filter isExpectation = blocks.flatMap Block.expectations := by
  have hcases : ofFile assorted =
      [⟨"test cat", "", "first", 1⟩, ⟨"test cat", "void main()\x7b\n ;\n\n\x7d", " a;\nb", 6⟩,
        ⟨"test cat", "int x;", "", 13⟩] := by
    decide +kernel
  refine ⟨hcases, ?_⟩
  obtain ⟨file, hlined, ⟨-, hnone⟩ | ⟨head, first, rest, command, blanks, blocks, unused, hfile, -,
    -, hlayout, hblocks, hfilter, -⟩⟩ := ofFile_eq_blocks assorted
  · cases hcases.symm.trans hnone
  · refine ⟨file, head, first, rest, blanks, blocks, unused, hlined, hfile, hlayout, ?_, hfilter⟩
    rw [← Block.length_casesAt, ← hblocks, hcases]
    rfl

end GlslShrink.Expectation
