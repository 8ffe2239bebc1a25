import GlslShrink.Proofs.Renaming.Requests

/-!
When renaming gives every symbol the name that it has. Of the requests of a tree only the first one
of each symbol that has no short name yet is new (`newcomers`). Serving them leaves all spellings as
they are if and only if these symbols are spelled, one after the other, like the first names of their
numberings that are free (`inOrder_iff`).
-/

set_option autoImplicit false

namespace GlslShrink

/-- The requests of symbols that are not known, each for the first time. -/
def newcomers (known : List String) : List Request → List Request
  | [] => []
  | request :: requests =>
    if request.name ∈ known then newcomers known requests
    else request :: newcomers (request.name :: known) requests

/-- The symbols are spelled as if they had been named one after the other: every one has the first
free name of its numbering from the number `next` on, which is `last` in the end. -/
inductive InOrder (free : String → Prop) : (next : Nat) → List Request → (last : Nat) → Prop where
  | nil (next : Nat) : InOrder free next [] next
  | cons {next index last : Nat} {request : Request} {requests : List Request}
      (hindex : next ≤ index) (hname : request.name = request.nameFor index)
      (hfree : free request.name)
      (hpassed : ∀ i, next ≤ i → i < index → ¬free (request.nameFor i))
      (hrest : InOrder free (index + 1) requests last) : InOrder free next (request :: requests) last

namespace Generator

variable {names : Generator} {free : String → Prop} {known : List String}

/-- All symbols have themselves as short names. -/
def Faithful (names : Generator) : Prop :=
  ∀ name short, names.shortened.find? name = some short → short = name

/-- The numbered names that are still to come are free if and only if the generator takes them for
free. -/
def Agrees (names : Generator) (free : String → Prop) : Prop :=
  ∀ i word, names.nextIndex ≤ i → ShortName.Numbers i word →
    (free word ↔ isFree names.used word = true)

/-- A request changes nothing, or its symbol gets the first free name. -/
theorem serve_cases (names : Generator) (request : Request) :
    (∃ short, names.shortened.find? request.name = some short ∧ names.serve request = names) ∨
      names.shortened.find? request.name = none ∧
        ∃ index, names.nextIndex ≤ index ∧
          isFree names.used (request.nameFor index) = true ∧
          (∀ i, names.nextIndex ≤ i → i < index →
            isFree names.used (request.nameFor i) = false) ∧
          names.serve request =
            { names.assign request.name (request.nameFor index) with nextIndex := index + 1 } := by
  cases hfind : names.shortened.find? request.name with
  | some short => exact Or.inl ⟨short, rfl, by rw [serve, shortenBy_of_find? hfind]⟩
  | none =>
    obtain ⟨index, hindex, hfree, hpassed, heq⟩ := shortenBy_of_new request.numbering hfind
    exact Or.inr ⟨rfl, index, hindex, hfree, hpassed, by rw [serve, heq]⟩

theorem find?_foldl_serve {requests : List Request} {name short : String}
    (h : names.shortened.find? name = some short) :
    (requests.foldl serve names).shortened.find? name = some short := by
  induction requests generalizing names with
  | nil => exact h
  | cons request requests ih =>
    refine ih ?_
    rw [find?_serve]
    by_cases hname : name = request.name
    · rw [if_pos hname, shortenBy_of_find? (hname ▸ h)]
    · rw [if_neg hname, h]

/-- Names that were handed out have lower numbers than those still to come. -/
theorem Agrees.assign (h : names.Agrees free) (symbol : String) {short : String} {index : Nat}
    (hindex : names.nextIndex ≤ index) (hnumber : ShortName.Numbers index short) :
    Agrees { names.assign symbol short with nextIndex := index + 1 } free := by
  intro i word hi hword
  have hi' : index + 1 ≤ i := hi
  have hne : word ≠ short := by
    rintro rfl
    have heq := hnumber.unique hword
    omega
  rw [h i word (by omega) hword, isFree_iff, isFree_iff]
  simp only [mem_assign_used, hne, false_or]

/-- Serving requests leaves all spellings as they are if and only if the newcomers are in order. -/
theorem inOrder_iff (requests : List Request) (hfaithful : names.Faithful)
    (hagrees : names.Agrees free)
    (hknown : ∀ name, name ∈ known ↔ ∃ short, names.shortened.find? name = some short) (last : Nat) :
    InOrder free names.nextIndex (newcomers known requests) last ↔
      (requests.foldl serve names).Faithful ∧ (requests.foldl serve names).nextIndex = last := by
  induction requests generalizing names known with
  | nil =>
    constructor
    · rintro ⟨⟩
      exact ⟨hfaithful, rfl⟩
    · rintro ⟨-, rfl⟩
      exact .nil _
  | cons request requests ih =>
    rw [newcomers, List.foldl_cons]
    rcases names.serve_cases request with ⟨short, hfind, hserve⟩ |
      ⟨hfind, index, hindex, hfree, hpassed, hserve⟩
    · rw [if_pos ((hknown _).mpr ⟨short, hfind⟩), hserve]
      exact ih hfaithful hagrees hknown
    · have hnew : request.name ∉ known := by
        rw [hknown, hfind]
        exact nofun
      have hnumber := request.numbering.numbers index
      have hagrees' := hagrees.assign request.name hindex hnumber
      have hknown' : ∀ name, name ∈ request.name :: known ↔
          ∃ short, (names.assign request.name (request.nameFor index)).shortened.find? name =
            some short := by
        intro name
        rw [List.mem_cons, hknown, find?_assign]
        by_cases hname : name = request.name <;> simp [hname]
      have hfaithful' : request.name = request.nameFor index → Faithful
          { names.assign request.name (request.nameFor index) with nextIndex := index + 1 } := by
        intro hname name short hshort
        rw [find?_assign] at hshort
        by_cases heq : name = request.name
        · rw [if_pos heq, Option.some.injEq] at hshort
          rw [heq, ← hshort, ← hname]
        · rw [if_neg heq] at hshort
          exact hfaithful name short hshort
      rw [if_neg hnew, hserve]
      constructor
      · rintro (_ | @⟨_, index', _, _, _, hindex', hname, hfree', hpassed', hrest⟩)
        -- Both numbers are the first free one from the next number on.
        have hsame : index' = index := by
          have hnumber' := request.numbering.numbers index'
          rcases Nat.lt_trichotomy index' index with hlt | heq | hlt
          · rw [hname, hagrees index' _ hindex' hnumber', hpassed index' hindex' hlt] at hfree'
            cases hfree'
          · exact heq
          · exact absurd ((hagrees index _ hindex hnumber).mpr hfree) (hpassed' index hindex hlt)
        subst hsame
        exact (ih (hfaithful' hname) hagrees' hknown').mp hrest
      · rintro ⟨hall, hlast⟩
        have hself : request.nameFor index = request.name := by
          refine hall _ _ (find?_foldl_serve ?_)
          rw [find?_assign, if_pos rfl]
        refine .cons hindex hself.symm ?_ (fun i hi hlt => ?_)
          ((ih (hfaithful' hself.symm) hagrees' hknown').mpr ⟨hall, hlast⟩)
        · rw [← hself]
          exact (hagrees index _ hindex hnumber).mpr hfree
        · rw [hagrees i _ hi (request.numbering.numbers i), hpassed i hi hlt]
          exact Bool.false_ne_true

end Generator

end GlslShrink
