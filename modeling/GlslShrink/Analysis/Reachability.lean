import GlslShrink.Naming.NameSet

/-!
The names that can be reached from given ones by following links. A name is followed once: the links
that are still to be followed, counted by `weight`, bound the work.
-/

set_option autoImplicit false

namespace GlslShrink

/-- For some names, the names they link to, in order and with repetitions. -/
abbrev Links : Type :=
  NameMap (List String)

namespace Links

def targets (links : Links) (name : String) : List String :=
  (links.find? name).getD []

/-- The number of links from names that have not been seen. -/
def weight (seen : NameSet) : Links → Nat
  | [] => 0
  | (name, targets) :: links => (if name ∈ seen then 0 else targets.length) + weight seen links

theorem weight_insert_le (seen : NameSet) (name : String) (links : Links) :
    weight (seen.insert name) links ≤ weight seen links := by
  induction links with
  | nil => simp [weight]
  | cons entry links ih =>
    simp only [weight, NameSet.mem_insert]
    grind

/-- Seeing a name takes its links off the weight. -/
theorem weight_insert_add_le {seen : NameSet} {name : String} (h : name ∉ seen) (links : Links) :
    weight (seen.insert name) links + (targets links name).length ≤ weight seen links := by
  induction links with
  | nil => simp [weight, targets, NameMap.find?]
  | cons entry links ih =>
    have hle := weight_insert_le seen name links
    simp only [weight, targets, NameMap.find?, NameSet.mem_insert] at ih ⊢
    by_cases heq : name = entry.1 <;> grind

/-- Adds to `seen` all names that can be reached from `pending` without passing a seen name. -/
def reachFrom (links : Links) (seen : NameSet) : List String → NameSet
  | [] => seen
  | name :: pending =>
    if name ∈ seen then reachFrom links seen pending
    else reachFrom links (seen.insert name) (links.targets name ++ pending)
termination_by pending => weight seen links + pending.length
decreasing_by
  · simp
  · rename_i hseen
    have := weight_insert_add_le hseen links
    simp only [List.length_append, List.length_cons]
    omega

/-- All names that can be reached from `roots`, these included. -/
def reachable (links : Links) (roots : List String) : NameSet :=
  links.reachFrom [] roots

end Links

end GlslShrink
