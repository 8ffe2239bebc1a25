import GlslShrink.Pipeline.Step
import GlslShrink.Proofs.Pipeline.Cycles

/-!
The search for cycles as a depth-first search with marks. Every job is unvisited, being visited or
done. The search keeps a stack of the jobs that are being visited, and where it comes back to one of
them it looks up its place there, to report what stands from that place on. The marks say what is on
the stack and what is finished (`Marked`), so this search and `checkCycles` agree step by step
(`explore_agrees`). In particular, the marked job is always found on the stack: whatever the search
is told to do otherwise, it never does.
-/

set_option autoImplicit false

namespace GlslShrink.Schedule

/-! ### The search with marks -/

inductive VisitMark where
  | unvisited
  | visiting
  | done
  deriving DecidableEq, Repr

/-- The marks of the jobs by name, and the names of those being visited, outermost first. -/
structure Search where
  marks : String → VisitMark := fun _ => .unvisited
  stack : List String := []

namespace Search

def enter (search : Search) (name : String) : Search where
  marks := Function.update search.marks name .visiting
  stack := search.stack ++ [name]

def leave (search : Search) (name : String) : Search where
  marks := Function.update search.marks name .done
  stack := search.stack.dropLast

/-- Follows one dependency of the job called `name`. If that is being visited, the path from it to
the job is a cycle. A name that no job has, or that is marked but not on the stack, leads to
`otherwise`. -/
def follow (jobs : List Job) (otherwise : Search → Except ScheduleError Search)
    (explore : Search → Job → Except ScheduleError Search) (name : String) (search : Search)
    (dependency : String) : Except ScheduleError Search :=
  match search.marks dependency with
  | .done => .ok search
  | .unvisited =>
    match jobNamed? jobs dependency with
    | some other => explore search other
    | none => otherwise search
  | .visiting =>
    match search.stack.findIdx? (fun around => around == dependency) with
    | some start => .error (.cycle (name :: search.stack.drop start))
    | none => otherwise search

/-- Marks a job, follows its dependencies and marks it as done. -/
def explore (jobs : List Job) (otherwise : Search → Except ScheduleError Search) :
    Nat → Search → Job → Except ScheduleError Search
  | 0, search, _ => otherwise search
  | depth + 1, search, job => do
    let search ← job.dependencies.foldlM (follow jobs otherwise (explore jobs otherwise depth)
      job.name) (search.enter job.name)
    return search.leave job.name

/-- Explores every job that is still unvisited when its turn comes. -/
def exploreAll (jobs : List Job) (otherwise : Search → Except ScheduleError Search) :
    Except ScheduleError Unit := do
  let _ ← (byPhase jobs).foldlM (fun search job =>
    if search.marks job.name = .unvisited then explore jobs otherwise jobs.length search job
    else .ok search) {}
  return ()

end Search

/-! ### What the marks say -/

variable {jobs stack : List Job} {job : Job} {done : List String} {search : Search}
  {otherwise : Search → Except ScheduleError Search}

/-- The jobs that are being visited are those on the stack, and the finished ones are done. -/
structure Marked (search : Search) (stack : List Job) (done : List String) : Prop where
  path : search.stack = (stack.map Job.name).reverse
  visiting : ∀ name, search.marks name = .visiting ↔ name ∈ stack.map Job.name
  finished : ∀ name, search.marks name = .done ↔ name ∈ done

theorem marked_empty : Marked {} [] [] :=
  ⟨rfl, by simp, by simp⟩

theorem Marked.enter (h : Marked search stack done) (hdone : job.name ∉ done) :
    Marked (search.enter job.name) (job :: stack) done where
  path := by
    rw [Search.enter, h.path, List.map_cons, List.reverse_cons]
  visiting name := by
    rw [Search.enter, List.map_cons, List.mem_cons, ← h.visiting]
    by_cases hname : name = job.name
    · simp [hname]
    · simp [hname]
  finished name := by
    rw [Search.enter, ← h.finished]
    by_cases hname : name = job.name
    · rw [← h.finished] at hdone
      simp [hname, hdone]
    · simp [hname]

theorem Marked.leave (h : Marked search (job :: stack) done)
    (hdistinct : ((job :: stack).map Job.name).Nodup) :
    Marked (search.leave job.name) stack (job.name :: done) where
  path := by
    rw [Search.leave, h.path, List.map_cons, List.reverse_cons, List.dropLast_concat]
  visiting name := by
    have hvisiting := h.visiting name
    rw [List.map_cons, List.mem_cons] at hvisiting
    rw [List.map_cons, List.nodup_cons] at hdistinct
    rw [Search.leave]
    by_cases hname : name = job.name
    · simp [hname, hdistinct.1]
    · simpa [hname] using hvisiting
  finished name := by
    rw [Search.leave, List.mem_cons, ← h.finished]
    by_cases hname : name = job.name
    · simp [hname]
    · simp [hname]

theorem Marked.unvisited_iff (h : Marked search stack done) {name : String} :
    search.marks name = .unvisited ↔ name ∉ stack.map Job.name ∧ name ∉ done := by
  rw [← h.visiting, ← h.finished]
  cases search.marks name <;> decide

/-- A job that is being visited has a place on the stack, and what stands from there on is the path
of the cycle. -/
theorem Marked.findIdx? (h : Marked search (job :: stack) done) {name : String}
    (hname : search.marks name = .visiting) :
    ∃ start, search.stack.findIdx? (fun around => around == name) = some start ∧
      job.name :: search.stack.drop start = cyclePath (job :: stack) name := by
  have hmem : ∃ around ∈ search.stack, (around == name) = true := by
    refine ⟨name, ?_, beq_self_eq_true name⟩
    rw [h.path, List.mem_reverse]
    exact (h.visiting name).mp hname
  have hdrop : search.stack.drop (search.stack.findIdx fun around => around == name) =
      search.stack.dropWhile (fun around => around != name) := by
    simp only [List.dropWhile_eq_drop_findIdx_not, bne, Bool.not_not]
  refine ⟨_, List.findIdx?_eq_some_of_exists hmem, ?_⟩
  rw [hdrop, h.path, ← List.map_reverse, List.dropWhile_map, cyclePath]
  rfl

/-! ### Agreement -/

/-- The two searches report the same cycle, or both go on and the marks still say where. -/
inductive Agrees (jobs stack : List Job) :
    Except ScheduleError Search → Except ScheduleError (List String) → Prop where
  | ok {search : Search} {done : List String} (hwalking : Walking jobs stack done)
      (hmarked : Marked search stack done) : Agrees jobs stack (.ok search) (.ok done)
  | error (error : ScheduleError) : Agrees jobs stack (.error error) (.error error)

theorem agrees_foldlM {α : Type} {f : Search → α → Except ScheduleError Search}
    {g : List String → α → Except ScheduleError (List String)} {items : List α}
    (hstep : ∀ search done, Walking jobs stack done → Marked search stack done →
      ∀ item ∈ items, Agrees jobs stack (f search item) (g done item)) :
    ∀ search done, Walking jobs stack done → Marked search stack done →
      Agrees jobs stack (items.foldlM f search) (items.foldlM g done) := by
  induction items with
  | nil => exact fun _ _ hwalking hmarked => .ok hwalking hmarked
  | cons item items ih =>
    intro search done hwalking hmarked
    have hfirst := hstep search done hwalking hmarked item List.mem_cons_self
    rw [List.foldlM_cons, List.foldlM_cons]
    generalize f search item = marked at hfirst
    generalize g done item = walked at hfirst
    cases hfirst with
    | ok hwalking hmarked =>
      exact ih (fun search done hwalking hmarked other hother => hstep search done hwalking hmarked
        other (List.mem_cons_of_mem item hother)) _ _ hwalking hmarked
    | error error => exact .error error

theorem Agrees.bind {inner : List Job} {marked : Except ScheduleError Search}
    {walked : Except ScheduleError (List String)} {f : Search → Except ScheduleError Search}
    {g : List String → Except ScheduleError (List String)} (h : Agrees jobs inner marked walked)
    (hnext : ∀ search done, walked = .ok done → Marked search inner done →
      Agrees jobs stack (f search) (g done)) :
    Agrees jobs stack (marked >>= f) (walked >>= g) := by
  cases h with
  | ok _ hmarked => exact hnext _ _ rfl hmarked
  | error error => exact .error error

theorem Agrees.ignored {marked : Except ScheduleError Search}
    {walked : Except ScheduleError (List String)} (h : Agrees jobs stack marked walked) :
    (do let _ ← marked; return () : Except ScheduleError Unit) = do let _ ← walked; return () := by
  cases h <;> rfl

/-- Visiting a job with marks comes to the same as visiting it with the stack and the finished names.
The induction is on the depth, which the stack never uses up. -/
theorem explore_agrees (hjobs : Registered jobs) (depth : Nat) :
    ∀ (stack : List Job) (done : List String) (job : Job) (search : Search),
      Walking jobs (job :: stack) done → Marked search stack done →
        jobs.length ≤ depth + stack.length →
          Agrees jobs stack (search.explore jobs otherwise depth job)
            (visit jobs depth stack done job) := by
  induction depth with
  | zero =>
    intro stack done job search hwalking hmarked hdepth
    have hlength := hwalking.length_le
    rw [List.length_cons] at hlength
    omega
  | succ depth ih =>
    intro stack done job search hwalking hmarked hdepth
    have hjob := hwalking.mem job List.mem_cons_self
    have hwalked := visit_walked hjobs (depth + 1) stack done job hwalking hdepth
    rw [visit] at hwalked ⊢
    rw [Search.explore]
    have hentered := hmarked.enter (hwalking.apart job List.mem_cons_self)
    refine .bind (agrees_foldlM ?_ _ _ hwalking hentered) fun search later hlater hmarked => ?_
    · intro search done hwalking hmarked dependency hdependency
      simp only [List.contains_iff_mem, List.any_eq_true, beq_iff_eq, Search.follow]
      cases hmark : search.marks dependency with
      | done =>
        rw [if_pos ((hmarked.finished dependency).mp hmark)]
        exact .ok hwalking hmarked
      | visiting =>
        have hstack := (hmarked.visiting dependency).mp hmark
        have hdone : dependency ∉ done := fun h => by
          rw [← hmarked.finished, hmark] at h
          cases h
        obtain ⟨start, hstart, hpath⟩ := hmarked.findIdx? hmark
        rw [if_neg hdone, if_pos (List.mem_map.mp hstack), hstart, ← hpath]
        exact .error _
      | unvisited =>
        obtain ⟨hstack, hdone⟩ := hmarked.unvisited_iff.mp hmark
        obtain ⟨other, hother, rfl⟩ := hjobs.known job hjob dependency hdependency
        rw [if_neg hdone, if_neg (mt List.mem_map.mpr hstack), jobNamed?_name hjobs.distinct hother]
        apply ih (job :: stack) done other search _ hmarked
        · rw [List.length_cons]
          omega
        · apply hwalking.enter hother hdone
          · exact fun around haround hname => hstack (hname ▸ List.mem_map_of_mem haround)
          · simpa using (depends_name_iff hjobs.distinct hjob).mpr hdependency
    · rw [hlater] at hwalked
      exact .ok hwalked.1 (hmarked.leave hwalking.distinct)

/-- The search with marks comes to the same as `checkCycles`, whatever it is told to do where a
marked job is not on the stack. -/
theorem exploreAll_eq (hjobs : Registered jobs) :
    Search.exploreAll jobs otherwise = checkCycles jobs := by
  have hagrees : Agrees jobs []
      ((byPhase jobs).foldlM (fun search job =>
        if search.marks job.name = .unvisited
        then search.explore jobs otherwise jobs.length job else .ok search) {})
      ((byPhase jobs).foldlM (fun done job =>
        if done.contains job.name then .ok done else visit jobs jobs.length [] done job) []) := by
    refine agrees_foldlM ?_ _ _ walking_empty marked_empty
    intro search done hwalking hmarked job hjob
    simp only [List.contains_iff_mem]
    by_cases hdone : job.name ∈ done
    · have hmark : search.marks job.name ≠ .unvisited := by
        rw [(hmarked.finished job.name).mpr hdone]
        decide
      rw [if_pos hdone, if_neg hmark]
      exact .ok hwalking hmarked
    · have hmark : search.marks job.name = .unvisited :=
        hmarked.unvisited_iff.mpr ⟨List.not_mem_nil, hdone⟩
      rw [if_neg hdone, if_pos hmark]
      apply explore_agrees hjobs jobs.length [] done job search _ hmarked (Nat.le_add_right _ _)
      exact hwalking.enter (mem_byPhase.mp hjob) hdone (by simp) (by simp)
  exact hagrees.ignored

/-! ### Reported cycles -/

/-- The check fails exactly if some job depends on itself through others. It then reports a cycle
with its names in order, and the search with marks reports the same one: it always finds the job
that it comes back to on its stack. -/
theorem checkCycles_reports (hjobs : Registered jobs) :
    ((∃ error, checkCycles jobs = .error error) ↔
        ∃ name, Relation.TransGen (Depends jobs) name name) ∧
      (∀ error, checkCycles jobs = .error error → ∃ path, error = .cycle path ∧
        IsCycle jobs path ∧ (CompileError.ofSchedule error).message =
          "dependency cycle between compiler steps: " ++ String.intercalate "->" path) ∧
      ∀ otherwise, Search.exploreAll jobs otherwise = checkCycles jobs := by
  refine ⟨?_, ?_, fun _ => exploreAll_eq hjobs⟩
  · have hacyclic := checkCycles_eq_ok_iff hjobs
    rw [Acyclic, ← not_exists] at hacyclic
    cases hcheck : checkCycles jobs with
    | ok value => simp [hacyclic.mp hcheck]
    | error error =>
      refine iff_of_true ⟨error, rfl⟩ (not_not.mp fun hnone => ?_)
      cases hcheck.symm.trans (hacyclic.mpr hnone)
  · intro error herror
    rcases checkCycles_walked hjobs with ⟨hok, -⟩ | ⟨path, hpath, hcycle⟩
    · cases herror.symm.trans hok
    · cases herror.symm.trans hpath
      exact ⟨path, rfl, hcycle, rfl⟩

/-- A job outside of the cycle that leads into it, and one that is done before. -/
def detour : List Job :=
  [⟨"emit", .minification, ["rename", "scan"]⟩, ⟨"scan", .optimization, []⟩,
    ⟨"rename", .minification, ["scan", "count"]⟩, ⟨"count", .minification, ["merge"]⟩,
    ⟨"merge", .minification, ["scan", "rename"]⟩]

theorem checkCycles_reports_detour :
    Registered detour ∧
      checkCycles detour = .error (.cycle ["merge", "rename", "count", "merge"]) ∧
      IsCycle detour ["merge", "rename", "count", "merge"] ∧
      ∀ otherwise, Search.exploreAll detour otherwise =
        .error (.cycle ["merge", "rename", "count", "merge"]) := by
  have hjobs : Registered detour := ⟨by decide, by decide⟩
  have hcheck : checkCycles detour = .error (.cycle ["merge", "rename", "count", "merge"]) := by
    decide
  obtain ⟨-, hreported, hmarks⟩ := checkCycles_reports hjobs
  obtain ⟨path, hpath, hcycle, -⟩ := hreported _ hcheck
  cases hpath
  exact ⟨hjobs, hcheck, hcycle, fun otherwise => (hmarks otherwise).trans hcheck⟩

end GlslShrink.Schedule
