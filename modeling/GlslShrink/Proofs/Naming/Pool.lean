import GlslShrink.Proofs.Naming.Generator
import Mathlib.Data.Nat.Init
import Mathlib.Logic.Relation
import Mathlib.Order.Bounds.Defs

/-!
Generators in use. Any number of generators are started, copied and used in any order (`Turn`):
names are reserved, symbols get plain or definition names, or free names chosen elsewhere.
No turn makes two symbols of a generator share a name (`Turn.proper`), and none takes a name away
(`Turn.keeps`). What the next symbol gets is the first free name, which a search without a bound
finds as well (`Tries`).
-/

set_option autoImplicit false

namespace GlslShrink.Generator

/-! ### One use -/

/-- One use of a generator. A name chosen elsewhere is free and goes to a symbol without one. -/
inductive Uses (names : Generator) : Generator → Prop where
  | reserve (name : String) : Uses names (names.reserve name)
  | shortenSymbol (symbol : String) : Uses names (names.shortenSymbol symbol).2
  | shortenDefinition (symbol : String) : Uses names (names.shortenDefinition symbol).2
  | assign {symbol short : String} (hnew : names.shortened.find? symbol = none)
      (hfree : short ∉ names.used) : Uses names (names.assign symbol short)

/-- Symbols that have a name keep it. -/
def Keeps (names names' : Generator) : Prop :=
  ∀ symbol short, names.shortened.find? symbol = some short →
    names'.shortened.find? symbol = some short

theorem Uses.proper {names names' : Generator} (h : names.Uses names') (hproper : names.Proper) :
    names'.Proper := by
  cases h with
  | reserve name => exact hproper.reserveAll [name]
  | shortenSymbol symbol => exact (hproper.shorten numbering_plain symbol).proper
  | shortenDefinition symbol => exact (hproper.shorten numbering_definition symbol).proper
  | assign _ hfree => exact hproper.assign hfree _

theorem Uses.keeps {names names' : Generator} (h : names.Uses names') (hproper : names.Proper) :
    names.Keeps names' := by
  intro symbol short hfind
  cases h with
  | reserve name => exact hfind
  | shortenSymbol symbol => exact (hproper.shorten numbering_plain symbol).grows.keeps hfind
  | shortenDefinition symbol =>
    exact (hproper.shorten numbering_definition symbol).grows.keeps hfind
  | @assign assigned _ hnew _ =>
    have hne : symbol ≠ assigned := by
      rintro rfl
      cases hfind.symm.trans hnew
    rw [find?_assign, if_neg hne, hfind]

/-! ### Turns -/

/-- One generator is used, or a new one starts, from some index or as a copy. -/
inductive Turn (pool : List Generator) : List Generator → Prop where
  | use {i : Nat} {names names' : Generator} (hplace : pool[i]? = some names)
      (huses : names.Uses names') : Turn pool (pool.set i names')
  | start (index : Nat) : Turn pool (pool ++ [startingAt index])
  | copy {i : Nat} {names : Generator} (hplace : pool[i]? = some names) :
      Turn pool (pool ++ [names])

section Turn

variable {pool pool' : List Generator} {i : Nat} {names : Generator}

theorem Turn.proper (h : Turn pool pool') (hpool : ∀ names ∈ pool, names.Proper) :
    ∀ names ∈ pool', names.Proper := by
  cases h with
  | use hplace huses =>
    intro names hnames
    rcases List.mem_or_eq_of_mem_set hnames with hnames | rfl
    · exact hpool names hnames
    · exact huses.proper (hpool _ (List.mem_of_getElem? hplace))
  | start index =>
    exact List.forall_mem_append.mpr
      ⟨hpool, List.forall_mem_singleton.mpr (proper_startingAt index)⟩
  | copy hplace =>
    exact List.forall_mem_append.mpr
      ⟨hpool, List.forall_mem_singleton.mpr (hpool _ (List.mem_of_getElem? hplace))⟩

theorem Turn.keeps (h : Turn pool pool') (hpool : ∀ names ∈ pool, names.Proper)
    (hplace : pool[i]? = some names) : ∃ names', pool'[i]? = some names' ∧ names.Keeps names' := by
  have hi := (List.getElem?_eq_some_iff.mp hplace).1
  cases h with
  | @use j used used' hused huses =>
    by_cases hij : j = i
    · subst hij
      cases hused.symm.trans hplace
      exact ⟨used', List.getElem?_set_self hi,
        huses.keeps (hpool _ (List.mem_of_getElem? hplace))⟩
    · exact ⟨names, by rw [List.getElem?_set_ne hij, hplace], fun _ _ hfind => hfind⟩
  | start index =>
    exact ⟨names, by rw [List.getElem?_append_left hi, hplace], fun _ _ hfind => hfind⟩
  | copy =>
    exact ⟨names, by rw [List.getElem?_append_left hi, hplace], fun _ _ hfind => hfind⟩

theorem proper_of_turns (hpool : ∀ names ∈ pool, names.Proper)
    (h : Relation.ReflTransGen Turn pool pool') : ∀ names ∈ pool', names.Proper := by
  induction h with
  | refl => exact hpool
  | tail _ hturn ih => exact hturn.proper ih

theorem keeps_of_turns (hpool : ∀ names ∈ pool, names.Proper)
    (h : Relation.ReflTransGen Turn pool pool') (hplace : pool[i]? = some names) :
    ∃ names', pool'[i]? = some names' ∧ names.Keeps names' := by
  induction h with
  | refl => exact ⟨names, hplace, fun _ _ hfind => hfind⟩
  | tail hturns hturn ih =>
    obtain ⟨between, hbetween, hkeeps⟩ := ih
    obtain ⟨names', hplace', hkeeps'⟩ := hturn.keeps (proper_of_turns hpool hturns) hbetween
    exact ⟨names', hplace', fun symbol short hfind => hkeeps' _ _ (hkeeps _ _ hfind)⟩

end Turn

/-! ### New names -/

/-- Trying one name after the other from an index on ends with the name number `found`. -/
inductive Tries (used : NameSet) (nameFor : Nat → String) (found : Nat) : Nat → Prop where
  | free (hfree : isFree used (nameFor found) = true) : Tries used nameFor found found
  | taken {index : Nat} (htaken : isFree used (nameFor index) = false)
      (hnext : Tries used nameFor found (index + 1)) : Tries used nameFor found index

theorem tries_of_le {used : NameSet} {nameFor : Nat → String} {index found : Nat}
    (hle : index ≤ found) (hfree : isFree used (nameFor found) = true)
    (htaken : ∀ i, index ≤ i → i < found → isFree used (nameFor i) = false) :
    Tries used nameFor found index := by
  induction hle using Nat.decreasingInduction with
  | self => exact .free hfree
  | of_succ index hlt ih =>
    exact .taken (htaken index (Nat.le_refl index) hlt) (ih fun i hi => htaken i (by omega))

/-- A symbol gets the first free name from the next index on, and the index after that one is the
next. -/
def Allocates (nameFor : Nat → String) (names : Generator) (symbol : String)
    (result : String × Generator) : Prop :=
  ∃ index, Tries names.used nameFor index names.nextIndex ∧
    IsLeast {i | names.nextIndex ≤ i ∧ Word.isReserved (nameFor i) = false ∧
      nameFor i ∉ names.used} index ∧
    result = (nameFor index, { names.assign symbol (nameFor index) with nextIndex := index + 1 })

theorem allocates_shortenBy {nameFor : Nat → String} (hnumbering : Numbering nameFor)
    {names : Generator} {symbol : String} (hnew : names.shortened.find? symbol = none) :
    Allocates nameFor names symbol (shortenBy nameFor names symbol) := by
  obtain ⟨index, hle, hfree, htaken, heq⟩ := shortenBy_of_new hnumbering hnew
  refine ⟨index, tries_of_le hle hfree htaken, ⟨⟨hle, isFree_iff.mp hfree⟩, ?_⟩, heq⟩
  rintro i ⟨hi, hfree'⟩
  refine Nat.le_of_not_lt fun hlt => ?_
  cases (htaken i hi hlt).symm.trans (isFree_iff.mpr hfree')

/-- No two symbols share a name, a symbol that has a name gets it again and nothing changes, and one
that has none gets the first free plain or definition name. -/
structure HandsOut (names : Generator) : Prop where
  proper : names.Proper
  known : ∀ symbol short, names.shortened.find? symbol = some short →
    names.shortenSymbol symbol = (short, names) ∧ names.shortenDefinition symbol = (short, names)
  new : ∀ symbol, names.shortened.find? symbol = none →
    Allocates ShortName.plain names symbol (names.shortenSymbol symbol) ∧
      Allocates ShortName.definition names symbol (names.shortenDefinition symbol)

/-- However generators were started, copied and used, each of them hands out names as it should, and
a symbol that has a name has it for good. -/
theorem handsOut_of_turns {pool : List Generator} (hturns : Relation.ReflTransGen Turn [] pool)
    {i : Nat} {names : Generator} (hplace : pool[i]? = some names) :
    names.HandsOut ∧ ∀ pool', Relation.ReflTransGen Turn pool pool' →
      ∃ names', pool'[i]? = some names' ∧ names.Keeps names' := by
  have hpool := proper_of_turns (List.forall_mem_nil _) hturns
  refine ⟨⟨hpool names (List.mem_of_getElem? hplace), fun symbol short hfind => ?_,
    fun symbol hnew => ?_⟩, fun pool' hlater => keeps_of_turns hpool hlater hplace⟩
  · exact ⟨shortenBy_of_find? hfind, shortenBy_of_find? hfind⟩
  · exact ⟨allocates_shortenBy numbering_plain hnew, allocates_shortenBy numbering_definition hnew⟩

/-- The names from number 320 on are `if`, which is reserved, `jf`, which is in use here, `kf`. -/
def crowded : Generator :=
  (((startingAt 320).reserve "jf").shortenSymbol "light").2

/-- A copy of it in which the name `lf` was given to another symbol. -/
def crowdedCopy : Generator :=
  ((crowded.assign "dark" "lf").shortenDefinition "far").2

theorem handsOut_of_turns_crowded :
    Relation.ReflTransGen Turn [] [crowded, crowdedCopy] ∧
      [crowded, crowdedCopy][1]? = some crowdedCopy ∧
      crowdedCopy.shortOf "light" = "kf" ∧ crowdedCopy.shortOf "far" = "_lf" ∧
      crowdedCopy.HandsOut ∧ ∀ pool', Relation.ReflTransGen Turn [crowded, crowdedCopy] pool' →
        ∃ names', pool'[1]? = some names' ∧ crowdedCopy.Keeps names' := by
  have hstart : Turn [] [startingAt 320] := .start 320
  have hreserve : Turn [startingAt 320] [(startingAt 320).reserve "jf"] :=
    .use (i := 0) rfl (.reserve "jf")
  have hlight : Turn [(startingAt 320).reserve "jf"] [crowded] :=
    .use (i := 0) rfl (.shortenSymbol "light")
  have hcopy : Turn [crowded] [crowded, crowded] := .copy (i := 0) rfl
  have hdark : Turn [crowded, crowded] [crowded, crowded.assign "dark" "lf"] :=
    .use (i := 1) rfl (.assign (by decide +kernel) (by decide +kernel))
  have hfar : Turn [crowded, crowded.assign "dark" "lf"] [crowded, crowdedCopy] :=
    .use (i := 1) rfl (.shortenDefinition "far")
  have hturns : Relation.ReflTransGen Turn [] [crowded, crowdedCopy] :=
    (((((Relation.ReflTransGen.single hstart).tail hreserve).tail hlight).tail hcopy).tail
      hdark).tail hfar
  have hplace : [crowded, crowdedCopy][1]? = some crowdedCopy := rfl
  exact ⟨hturns, hplace, by decide +kernel, by decide +kernel, handsOut_of_turns hturns hplace⟩

end GlslShrink.Generator
