/-!
Sets of names, kept in ascending order, and finite maps from names.
-/

set_option autoImplicit false

namespace GlslShrink

/-- A set of names as an ascending list. -/
abbrev NameSet : Type :=
  List String

namespace NameSet

def insert (set : NameSet) (name : String) : NameSet :=
  match set with
  | [] => [name]
  | first :: others =>
    if name < first then name :: first :: others
    else if name = first then first :: others
    else first :: insert others name

def insertAll (set : NameSet) (names : List String) : NameSet :=
  names.foldl insert set

def ofList (names : List String) : NameSet :=
  insertAll [] names

def union (a b : NameSet) : NameSet :=
  insertAll a b

/-- The names that are not in the other set. -/
def without (a b : NameSet) : NameSet :=
  a.filter (fun name => !b.contains name)

theorem mem_insert {set : NameSet} {name other : String} :
    other ∈ insert set name ↔ other = name ∨ other ∈ set := by
  fun_induction insert set name with
  | case1 => simp
  | case2 first others h => simp
  | case3 others h => grind
  | case4 first others h h' ih => grind

theorem mem_insertAll {set : NameSet} {names : List String} {other : String} :
    other ∈ insertAll set names ↔ other ∈ set ∨ other ∈ names := by
  induction names generalizing set with
  | nil => simp [insertAll]
  | cons name names ih =>
    have step : insertAll set (name :: names) = insertAll (insert set name) names := rfl
    rw [step, ih, mem_insert]
    grind

theorem mem_ofList {names : List String} {other : String} : other ∈ ofList names ↔ other ∈ names := by
  simp [ofList, mem_insertAll]

theorem mem_union {a b : NameSet} {other : String} : other ∈ union a b ↔ other ∈ a ∨ other ∈ b :=
  mem_insertAll

theorem mem_without {a b : NameSet} {other : String} :
    other ∈ without a b ↔ other ∈ a ∧ other ∉ b := by
  simp [without]

end NameSet

/-- A finite map from names, in the order in which the names were added. -/
abbrev NameMap (α : Type) : Type :=
  List (String × α)

namespace NameMap

variable {α : Type}

def find? (map : NameMap α) (name : String) : Option α :=
  List.lookup name map

def contains (map : NameMap α) (name : String) : Bool :=
  (map.find? name).isSome

/-- Gives `name` the value `value`, whether it had one or not. -/
def insert (map : NameMap α) (name : String) (value : α) : NameMap α :=
  match map with
  | [] => [(name, value)]
  | (first, old) :: others =>
    if first = name then (first, value) :: others else (first, old) :: insert others name value

def names (map : NameMap α) : List String :=
  map.map Prod.fst

end NameMap

end GlslShrink
