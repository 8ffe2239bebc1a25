import GlslShrink.Analysis.Reachability
import Mathlib.Logic.Relation

/-!
What can be reached by following links. The search finds a name if and only if a chain of links
leads to it from one of the names it starts with (`mem_reachable_iff`).
-/

set_option autoImplicit false

namespace GlslShrink.Links

variable {links : Links} {seen : NameSet} {pending : List String}

/-- A chain of links leads from the first name to the second. -/
def Leads (links : Links) : String → String → Prop :=
  Relation.ReflTransGen (fun a b => b ∈ links.targets a)

/-- The names are seen already, or their links lead to names of the set. -/
def ClosedBut (links : Links) (seen set : NameSet) : Prop :=
  ∀ name ∈ set, name ∈ seen ∨ ∀ target ∈ links.targets name, target ∈ set

theorem leads_of_mem_reachFrom {name : String} (h : name ∈ links.reachFrom seen pending) :
    name ∈ seen ∨ ∃ start ∈ pending, links.Leads start name := by
  fun_induction reachFrom links seen pending with
  | case1 => exact Or.inl h
  | case2 seen first pending hseen ih =>
    exact (ih h).imp_right fun ⟨start, hstart, hleads⟩ =>
      ⟨start, List.mem_cons_of_mem _ hstart, hleads⟩
  | case3 seen first pending hseen ih =>
    rcases ih h with hname | ⟨start, hstart, hleads⟩
    · rcases NameSet.mem_insert.mp hname with rfl | hname
      · exact Or.inr ⟨name, List.mem_cons_self, .refl⟩
      · exact Or.inl hname
    · refine Or.inr ?_
      rcases List.mem_append.mp hstart with hlink | hstart
      · exact ⟨first, List.mem_cons_self, .head hlink hleads⟩
      · exact ⟨start, List.mem_cons_of_mem _ hstart, hleads⟩

/-- The search keeps what it has seen, adds what is pending, and stops only at what it had seen
before. -/
theorem reachFrom_closed (links : Links) (seen : NameSet) (pending : List String) :
    (∀ name ∈ seen, name ∈ links.reachFrom seen pending) ∧
      (∀ name ∈ pending, name ∈ links.reachFrom seen pending) ∧
      links.ClosedBut seen (links.reachFrom seen pending) := by
  fun_induction reachFrom links seen pending with
  | case1 seen => exact ⟨fun _ h => h, nofun, fun _ h => Or.inl h⟩
  | case2 seen first pending hseen ih =>
    obtain ⟨hkeeps, hadds, hclosed⟩ := ih
    exact ⟨hkeeps, List.forall_mem_cons.mpr ⟨hkeeps first hseen, hadds⟩, hclosed⟩
  | case3 seen first pending hseen ih =>
    obtain ⟨hkeeps, hadds, hclosed⟩ := ih
    have hfirst := hkeeps first (NameSet.mem_insert.mpr (Or.inl rfl))
    refine ⟨fun name hname => hkeeps name (NameSet.mem_insert.mpr (Or.inr hname)),
      List.forall_mem_cons.mpr ⟨hfirst, fun name hname => hadds name (by simp [hname])⟩, ?_⟩
    intro name hname
    rcases hclosed name hname with hbefore | htargets
    · rcases NameSet.mem_insert.mp hbefore with rfl | hbefore
      · exact Or.inr fun target htarget => hadds target (by simp [htarget])
      · exact Or.inl hbefore
    · exact Or.inr htargets

/-- The search finds exactly the names that chains of links lead to. -/
theorem mem_reachable_iff {roots : List String} {name : String} :
    name ∈ links.reachable roots ↔ ∃ root ∈ roots, links.Leads root name := by
  constructor
  · intro h
    exact (leads_of_mem_reachFrom h).resolve_left List.not_mem_nil
  · rintro ⟨root, hroot, hleads⟩
    obtain ⟨-, hadds, hclosed⟩ := reachFrom_closed links [] roots
    induction hleads with
    | refl => exact hadds root hroot
    | tail _ hlink ih => exact (hclosed _ ih).resolve_left List.not_mem_nil _ hlink

end GlslShrink.Links
