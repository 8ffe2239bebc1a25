import Mathlib.Data.List.Chain
import Mathlib.Data.List.Nodup
import Mathlib.Data.List.Perm.Subperm
import Mathlib.Logic.Relation
import GlslShrink.Pipeline.Schedule

/-!
Cycles of dependencies. Names are finished in an order in which all that a name depends on is
finished before it, so no cycle leads through a finished name (`Finished.acyclic`). The walk over
the jobs keeps a stack on which each job depends on the one inside it, with different names, none of
them finished; it either comes back to a job on the stack, which closes a cycle
(`isCycle_cyclePath`), or finishes the jobs it visits (`visit_walked`). The depth of the walk never
runs out, for the stack can not hold more jobs than there are.
-/

set_option autoImplicit false

namespace GlslShrink.Schedule

variable {jobs stack : List Job} {job : Job} {done : List String} {name : String}

/-! ### Dependencies -/

/-- The job called `name` names `dependency` as one of its dependencies. -/
def Depends (jobs : List Job) (name dependency : String) : Prop :=
  ∃ job ∈ jobs, job.name = name ∧ dependency ∈ job.dependencies

def Acyclic (jobs : List Job) : Prop :=
  ∀ name, ¬Relation.TransGen (Depends jobs) name name

/-- Names call different jobs, and dependencies are such names. -/
structure Registered (jobs : List Job) : Prop where
  distinct : (jobs.map Job.name).Nodup
  known : ∀ job ∈ jobs, ∀ dependency ∈ job.dependencies, ∃ other ∈ jobs, other.name = dependency

theorem eq_of_name_eq (hdistinct : (jobs.map Job.name).Nodup) {other : Job} (hjob : job ∈ jobs)
    (hother : other ∈ jobs) (hname : job.name = other.name) : job = other :=
  List.inj_on_of_nodup_map hdistinct hjob hother hname

theorem jobNamed?_name (hdistinct : (jobs.map Job.name).Nodup) (hjob : job ∈ jobs) :
    jobNamed? jobs job.name = some job := by
  cases hfind : jobNamed? jobs job.name with
  | none =>
    have hne := List.find?_eq_none.mp hfind job hjob
    simp at hne
  | some other =>
    have hname : other.name = job.name := by simpa using List.find?_some hfind
    rw [eq_of_name_eq hdistinct (List.mem_of_find?_eq_some hfind) hjob hname]

theorem depends_name_iff (hdistinct : (jobs.map Job.name).Nodup) (hjob : job ∈ jobs)
    {dependency : String} : Depends jobs job.name dependency ↔ dependency ∈ job.dependencies := by
  constructor
  · rintro ⟨other, hother, hname, hmem⟩
    rwa [eq_of_name_eq hdistinct hother hjob hname] at hmem
  · intro hmem
    exact ⟨job, hjob, rfl, hmem⟩

/-! ### Finished names -/

/-- Names in the order in which they were finished, the last one first. -/
inductive Finished (jobs : List Job) : List String → Prop where
  | none : Finished jobs []
  | finish {done : List String} {name : String} (hdone : Finished jobs done) (hnew : name ∉ done)
      (hdependencies : ∀ dependency, Depends jobs name dependency → dependency ∈ done) :
      Finished jobs (name :: done)

theorem Finished.mem_of_depends (h : Finished jobs done) :
    ∀ name ∈ done, ∀ dependency, Depends jobs name dependency → dependency ∈ done := by
  induction h with
  | none => simp
  | finish _ _ hdependencies ih =>
    intro name hname dependency hdepends
    apply List.mem_cons_of_mem
    rcases List.mem_cons.mp hname with rfl | hname
    · exact hdependencies dependency hdepends
    · exact ih name hname dependency hdepends

theorem Finished.mem_of_reaches (h : Finished jobs done) {dependency : String}
    (hreaches : Relation.ReflTransGen (Depends jobs) name dependency) (hname : name ∈ done) :
    dependency ∈ done := by
  induction hreaches with
  | refl => exact hname
  | tail _ hdepends ih => exact h.mem_of_depends _ ih _ hdepends

theorem Finished.acyclic (h : Finished jobs done) :
    ∀ name ∈ done, ¬Relation.TransGen (Depends jobs) name name := by
  induction h with
  | none => simp
  | finish hdone hnew hdependencies ih =>
    intro name hname hcycle
    rcases List.mem_cons.mp hname with rfl | hname
    · obtain ⟨next, hdepends, hback⟩ := Relation.TransGen.head'_iff.mp hcycle
      exact hnew (hdone.mem_of_reaches hback (hdependencies next hdepends))
    · exact ih name hname hcycle

/-- Of jobs that are finished some job depends on none of the others: the one finished first. -/
theorem Finished.exists_first (h : Finished jobs done) {pending : List Job}
    (hpending : ∃ job ∈ pending, job.name ∈ done) :
    ∃ job ∈ pending, ∀ other ∈ pending, ¬Depends jobs job.name other.name := by
  induction h with
  | none => simp at hpending
  | @finish done name _ _ hdependencies ih =>
    by_cases hearlier : ∃ job ∈ pending, job.name ∈ done
    · exact ih hearlier
    · obtain ⟨job, hjob, hname⟩ := hpending
      have hlast : job.name = name :=
        (List.mem_cons.mp hname).resolve_right fun hmem => hearlier ⟨job, hjob, hmem⟩
      refine ⟨job, hjob, fun other hother hdepends => hearlier ⟨other, hother, ?_⟩⟩
      exact hdependencies other.name (hlast ▸ hdepends)

/-! ### Cycles -/

/-- A way of at least one dependency back to where it started, through different names. -/
structure IsCycle (jobs : List Job) (path : List String) : Prop where
  long : 2 ≤ path.length
  closed : path.head? = path.getLast?
  linked : path.IsChain (Depends jobs)
  distinct : path.tail.Nodup

theorem IsCycle.not_acyclic {path : List String} (h : IsCycle jobs path) : ¬Acyclic jobs := by
  obtain ⟨hlong, hclosed, hlinked, -⟩ := h
  match path, hlong with
  | name :: next :: rest, _ =>
    rw [List.isChain_cons_cons] at hlinked
    have hback := List.relationReflTransGen_of_exists_isChain (next :: rest) hlinked.2 (by simp)
    have hlast : (next :: rest).getLast (by simp) = name := by
      rw [List.getLast?_cons_cons, List.getLast?_eq_getLast_of_ne_nil (by simp)] at hclosed
      exact (Option.some.inj hclosed).symm
    rw [hlast] at hback
    exact fun hacyclic => hacyclic name (Relation.TransGen.head' hlinked.1 hback)

/-- The jobs from the first one called `target` on. -/
theorem dropWhile_name_ne {path : List Job} {target : String}
    (hmem : ∃ job ∈ path, job.name = target) :
    ∃ before first rest, path = before ++ first :: rest ∧ first.name = target ∧
      path.dropWhile (fun job => job.name != target) = first :: rest := by
  induction path with
  | nil => simp at hmem
  | cons job path ih =>
    by_cases hname : job.name = target
    · exact ⟨[], job, path, rfl, hname, by simp [hname]⟩
    · have hrest : ∃ other ∈ path, other.name = target := by simpa [hname] using hmem
      obtain ⟨before, first, rest, rfl, hfirst, hdrop⟩ := ih hrest
      exact ⟨job :: before, first, rest, rfl, hfirst, by simpa [hname] using hdrop⟩

/-! ### The walk -/

/-- What holds while jobs are visited: each job on the stack depends on the one inside it, and what
is on the stack is not finished. -/
structure Walking (jobs stack : List Job) (done : List String) : Prop where
  mem : ∀ job ∈ stack, job ∈ jobs
  distinct : (stack.map Job.name).Nodup
  linked : stack.IsChain (fun inner outer => Depends jobs outer.name inner.name)
  apart : ∀ job ∈ stack, job.name ∉ done
  finished : Finished jobs done

theorem walking_empty : Walking jobs [] [] :=
  ⟨by simp, by simp, by simp, by simp, .none⟩

theorem Walking.length_le (h : Walking jobs stack done) : stack.length ≤ jobs.length :=
  ((h.distinct.of_map _).subperm h.mem).length_le

theorem Walking.enter (h : Walking jobs stack done) (hjob : job ∈ jobs) (hdone : job.name ∉ done)
    (hstack : ∀ around ∈ stack, around.name ≠ job.name)
    (hdepends : ∀ outer ∈ stack.head?, Depends jobs outer.name job.name) :
    Walking jobs (job :: stack) done where
  mem := List.forall_mem_cons.mpr ⟨hjob, h.mem⟩
  distinct := by
    rw [List.map_cons, List.nodup_cons]
    refine ⟨fun hmem => ?_, h.distinct⟩
    obtain ⟨around, haround, hname⟩ := List.mem_map.mp hmem
    exact hstack around haround hname
  linked := h.linked.cons hdepends
  apart := List.forall_mem_cons.mpr ⟨hdone, h.apart⟩
  finished := h.finished

theorem Walking.leave (hdistinct : (jobs.map Job.name).Nodup) (h : Walking jobs (job :: stack) done)
    (hdependencies : ∀ dependency ∈ job.dependencies, dependency ∈ done) :
    Walking jobs stack (job.name :: done) := by
  obtain ⟨hjob, hmem⟩ := List.forall_mem_cons.mp h.mem
  obtain ⟨hdone, hapart⟩ := List.forall_mem_cons.mp h.apart
  have hnames := h.distinct
  rw [List.map_cons, List.nodup_cons] at hnames
  constructor
  case mem => exact hmem
  case distinct => exact hnames.2
  case linked => exact h.linked.tail
  case apart =>
    intro around haround hname
    rcases List.mem_cons.mp hname with heq | hname
    · exact hnames.1 (heq ▸ List.mem_map_of_mem haround)
    · exact hapart around haround hname
  case finished =>
    apply Finished.finish h.finished hdone
    intro dependency hdepends
    exact hdependencies dependency ((depends_name_iff hdistinct hjob).mp hdepends)

/-- A job on the stack that the innermost job depends on closes a cycle. -/
theorem isCycle_cyclePath (h : Walking jobs (job :: stack) done) {dependency : String}
    (hdependency : dependency ∈ job.dependencies)
    (hstack : ∃ around ∈ job :: stack, around.name = dependency) :
    IsCycle jobs (cyclePath (job :: stack) dependency) := by
  have hreverse : ∃ around ∈ (job :: stack).reverse, around.name = dependency := by
    simpa only [List.mem_reverse] using hstack
  obtain ⟨before, first, rest, hsplit, hfirst, hdrop⟩ := dropWhile_name_ne hreverse
  have hpath : cyclePath (job :: stack) dependency =
      job.name :: (first :: rest).map Job.name := by
    rw [cyclePath, hdrop]
    rfl
  have hlinked : (before ++ first :: rest).IsChain
      (fun outer inner => Depends jobs outer.name inner.name) := by
    rw [← hsplit, List.isChain_reverse]
    exact h.linked
  have hdistinct : ((before ++ first :: rest).map Job.name).Nodup := by
    rw [← hsplit, List.map_reverse, List.nodup_reverse]
    exact h.distinct
  have hlast : (first :: rest).getLast? = some job := by
    have hwhole : (before ++ first :: rest).getLast? = some job := by
      rw [← hsplit, List.getLast?_reverse, List.head?_cons]
    rwa [List.getLast?_append_of_ne_nil _ (by simp)] at hwhole
  rw [hpath]
  constructor
  case long => simp
  case closed =>
    rw [List.map_cons, List.getLast?_cons_cons, ← List.map_cons, List.getLast?_map, hlast]
    rfl
  case linked =>
    have hfirstDepends : Depends jobs job.name first.name := by
      rw [hfirst]
      exact ⟨job, h.mem job List.mem_cons_self, rfl, hdependency⟩
    have hrest := (List.isChain_map Job.name).mpr hlinked.right_of_append
    exact List.IsChain.cons_cons hfirstDepends hrest
  case distinct =>
    rw [List.map_append] at hdistinct
    exact hdistinct.of_append_right

/-- A walk ends with finished names as described or reports a cycle. -/
def Walked (jobs : List Job) (P : List String → Prop) : Except ScheduleError (List String) → Prop
  | .ok done => P done
  | .error error => ∃ path, error = .cycle path ∧ IsCycle jobs path

theorem Walked.bind {P Q : List String → Prop} {walk : Except ScheduleError (List String)}
    {next : List String → Except ScheduleError (List String)} (h : Walked jobs P walk)
    (hnext : ∀ done, P done → Walked jobs Q (next done)) : Walked jobs Q (walk >>= next) := by
  cases walk with
  | ok done => exact hnext done h
  | error error => exact h

/-- Visiting one thing after the other finishes all of them, if each visit keeps what holds and
finishes its own name. -/
theorem walked_foldlM {α : Type} {P : List String → Prop} {f : α → String}
    {next : List String → α → Except ScheduleError (List String)} {items : List α}
    (hnext : ∀ done, P done → ∀ item ∈ items,
      Walked jobs (fun later => P later ∧ done ⊆ later ∧ f item ∈ later) (next done item)) :
    ∀ done, P done → Walked jobs
      (fun later => P later ∧ done ⊆ later ∧ ∀ item ∈ items, f item ∈ later)
      (items.foldlM next done) := by
  induction items with
  | nil =>
    intro done hdone
    exact ⟨hdone, List.Subset.refl done, by simp⟩
  | cons item items ih =>
    intro done hdone
    rw [List.foldlM_cons]
    apply (hnext done hdone item List.mem_cons_self).bind
    rintro between ⟨hbetween, hsubset, hitem⟩
    have hrest := ih (fun done hdone other hother =>
      hnext done hdone other (List.mem_cons_of_mem item hother)) between hbetween
    cases hfold : items.foldlM next between with
    | error error =>
      rw [hfold] at hrest
      exact hrest
    | ok later =>
      rw [hfold] at hrest
      obtain ⟨hlater, hbetweenLater, hitems⟩ := hrest
      exact ⟨hlater, List.Subset.trans hsubset hbetweenLater,
        List.forall_mem_cons.mpr ⟨hbetweenLater hitem, hitems⟩⟩

theorem visit_walked (hjobs : Registered jobs) (depth : Nat) :
    ∀ (stack : List Job) (done : List String) (job : Job), Walking jobs (job :: stack) done →
      jobs.length ≤ depth + stack.length →
        Walked jobs (fun later => Walking jobs stack later ∧ done ⊆ later ∧ job.name ∈ later)
          (visit jobs depth stack done job) := by
  induction depth with
  | zero =>
    intro stack done job hwalking hdepth
    have hlength := hwalking.length_le
    rw [List.length_cons] at hlength
    omega
  | succ depth ih =>
    intro stack done job hwalking hdepth
    have hjob := hwalking.mem job List.mem_cons_self
    rw [visit]
    apply Walked.bind (P := fun later => Walking jobs (job :: stack) later ∧ done ⊆ later ∧
      ∀ dependency ∈ job.dependencies, dependency ∈ later)
    · apply walked_foldlM (P := Walking jobs (job :: stack)) (f := id) _ done hwalking
      intro done hwalking dependency hdependency
      simp only [List.contains_iff_mem, List.any_eq_true, beq_iff_eq]
      by_cases hdone : dependency ∈ done
      · rw [if_pos hdone]
        exact ⟨hwalking, List.Subset.refl done, hdone⟩
      · rw [if_neg hdone]
        by_cases hstack : ∃ around ∈ job :: stack, around.name = dependency
        · rw [if_pos hstack]
          exact ⟨_, rfl, isCycle_cyclePath hwalking hdependency hstack⟩
        · rw [if_neg hstack]
          obtain ⟨other, hother, rfl⟩ := hjobs.known job hjob dependency hdependency
          rw [jobNamed?_name hjobs.distinct hother]
          apply ih (job :: stack) done other
          · apply hwalking.enter hother hdone
            · exact fun around haround hname => hstack ⟨around, haround, hname⟩
            · simpa using (depends_name_iff hjobs.distinct hjob).mpr hdependency
          · rw [List.length_cons]
            omega
    · rintro later ⟨hlater, hsubset, hdependencies⟩
      exact ⟨hlater.leave hjobs.distinct hdependencies, List.subset_cons_of_subset _ hsubset,
        List.mem_cons_self⟩

theorem mem_byPhase : job ∈ byPhase jobs ↔ job ∈ jobs := by
  have hphase : job.phase ∈ Phase.all := by cases job.phase <;> simp [Phase.all]
  simp [byPhase, hphase]

/-- All names are finished, or there is a cycle. -/
theorem checkCycles_walked (hjobs : Registered jobs) :
    (checkCycles jobs = .ok () ∧ ∃ done, Finished jobs done ∧ ∀ job ∈ jobs, job.name ∈ done) ∨
      ∃ path, checkCycles jobs = .error (.cycle path) ∧ IsCycle jobs path := by
  have hwalked : Walked jobs
      (fun later => Walking jobs [] later ∧ [] ⊆ later ∧ ∀ job ∈ byPhase jobs, job.name ∈ later)
      ((byPhase jobs).foldlM (fun done job =>
        if done.contains job.name then .ok done else visit jobs jobs.length [] done job) []) := by
    apply walked_foldlM (P := Walking jobs []) _ [] walking_empty
    intro done hwalking job hjob
    by_cases hdone : job.name ∈ done
    · rw [if_pos (List.contains_iff_mem.mpr hdone)]
      exact ⟨hwalking, List.Subset.refl done, hdone⟩
    · rw [if_neg (mt List.contains_iff_mem.mp hdone)]
      apply visit_walked hjobs jobs.length [] done job
      · exact hwalking.enter (mem_byPhase.mp hjob) hdone (by simp) (by simp)
      · simp
  rw [checkCycles]
  cases hfold : (byPhase jobs).foldlM (fun done job =>
      if done.contains job.name then .ok done else visit jobs jobs.length [] done job) [] with
  | ok done =>
    rw [hfold] at hwalked
    exact Or.inl ⟨rfl, done, hwalked.1.finished,
      fun job hjob => hwalked.2.2 job (mem_byPhase.mpr hjob)⟩
  | error error =>
    rw [hfold] at hwalked
    obtain ⟨path, rfl, hcycle⟩ := hwalked
    exact Or.inr ⟨path, rfl, hcycle⟩

theorem acyclic_of_finished (hfinished : Finished jobs done)
    (hall : ∀ job ∈ jobs, job.name ∈ done) : Acyclic jobs := by
  intro name hcycle
  obtain ⟨_, ⟨job, hjob, rfl, _⟩, _⟩ := Relation.TransGen.head'_iff.mp hcycle
  exact hfinished.acyclic job.name (hall job hjob) hcycle

theorem checkCycles_eq_ok_iff (hjobs : Registered jobs) :
    checkCycles jobs = .ok () ↔ Acyclic jobs := by
  rcases checkCycles_walked hjobs with ⟨hok, done, hfinished, hall⟩ | ⟨path, herror, hcycle⟩
  · exact iff_of_true hok (acyclic_of_finished hfinished hall)
  · exact iff_of_false (by simp [herror]) hcycle.not_acyclic

theorem exists_finished (hjobs : Registered jobs) (hacyclic : Acyclic jobs) :
    ∃ done, Finished jobs done ∧ ∀ job ∈ jobs, job.name ∈ done := by
  rcases checkCycles_walked hjobs with ⟨_, hfinished⟩ | ⟨path, _, hcycle⟩
  · exact hfinished
  · exact absurd hacyclic hcycle.not_acyclic

end GlslShrink.Schedule
