import GlslShrink.Pipeline.Step
import GlslShrink.Proofs.Pipeline.Cycles
import GlslShrink.Proofs.Traversal.Laws

/-!
Schedules. Jobs can be scheduled if and only if their names differ, all dependencies are known and
belong to no later phase, and there is no cycle (`Schedulable`, `schedule_cases`). A phase never
gets stuck: of the jobs that wait, the one whose name is finished first along the dependencies waits
for none of the others, and what belongs to earlier phases has run (`InPhase.exists_ready`). The
order that results takes at every place the runnable job that was registered first (`Greedy`), and
each step of a run sees what the steps before it published.
-/

set_option autoImplicit false

namespace GlslShrink

theorem Phase.eq_of_rank_eq {first second : Phase} (h : first.rank = second.rank) :
    first = second := by
  cases first <;> cases second <;> first | rfl | cases h

namespace Schedule

variable {jobs done pending : List Job} {job : Job} {phase : Phase}

/-- When jobs can be brought into an order. -/
structure Schedulable (jobs : List Job) : Prop extends Registered jobs where
  acyclic : Acyclic jobs
  phases : ∀ job ∈ jobs, ∀ other ∈ jobs, other.name ∈ job.dependencies →
    other.phase.rank ≤ job.phase.rank

/-- A job of the phase that has not run, but all that it depends on has. -/
def Runnable (phase : Phase) (before : List Job) (job : Job) : Prop :=
  job.phase = phase ∧ job ∉ before ∧
    ∀ dependency ∈ job.dependencies, ∃ other ∈ before, other.name = dependency

instance (phase : Phase) (before : List Job) (job : Job) :
    Decidable (Runnable phase before job) :=
  inferInstanceAs (Decidable (_ ∧ _ ∧ _))

/-- At every place stands the first job that is runnable there. -/
def Chosen (jobs order : List Job) : Prop :=
  ∀ before job after, order = before ++ job :: after →
    jobs.find? (fun other => Runnable job.phase before other) = some job

/-- An order of all jobs, phase by phase, in which every choice is the first one possible. -/
structure Greedy (jobs order : List Job) : Prop where
  perm : order.Perm jobs
  phases : order.Pairwise (fun first second => first.phase.rank ≤ second.phase.rank)
  dependencies : ∀ before job after, order = before ++ job :: after →
    ∀ dependency ∈ job.dependencies, ∃ other ∈ before, other.name = dependency
  chosen : Chosen jobs order

/-! ### The checks -/

theorem duplicate?_eq_none_iff (jobs : List Job) (seen : List String) :
    duplicate? seen jobs = none ↔
      (jobs.map Job.name).Nodup ∧ ∀ job ∈ jobs, job.name ∉ seen := by
  induction jobs generalizing seen with
  | nil => simp [duplicate?]
  | cons job jobs ih =>
    rw [duplicate?]
    by_cases hseen : job.name ∈ seen
    · simp [hseen]
    · simp only [List.contains_iff_mem, hseen, if_false, ih, List.map_cons, List.nodup_cons,
        List.mem_cons, not_or, List.mem_map]
      grind

theorem checkNames_cases (jobs : List Job) :
    (checkNames jobs = .ok () ∧ (jobs.map Job.name).Nodup) ∨
      ∃ name, checkNames jobs = .error (.duplicate name) ∧ ¬(jobs.map Job.name).Nodup := by
  have hnone := duplicate?_eq_none_iff jobs []
  rw [checkNames]
  cases hduplicate : duplicate? [] jobs with
  | none => exact Or.inl ⟨rfl, (hnone.mp hduplicate).1⟩
  | some name =>
    refine Or.inr ⟨name, rfl, fun hdistinct => ?_⟩
    rw [hnone.mpr ⟨hdistinct, by simp⟩] at hduplicate
    cases hduplicate

theorem mem_dependencyPairs {dependency : String} :
    (job, dependency) ∈ dependencyPairs jobs ↔ job ∈ jobs ∧ dependency ∈ job.dependencies := by
  simp [dependencyPairs]

theorem jobNamed?_eq_none_iff {name : String} :
    jobNamed? jobs name = none ↔ ¬∃ job ∈ jobs, job.name = name := by
  simp [jobNamed?]

theorem checkKnown_cases (hdistinct : (jobs.map Job.name).Nodup) :
    (checkKnown jobs = .ok () ∧ Registered jobs) ∨
      ∃ name dependency, checkKnown jobs = .error (.unknownDependency name dependency) ∧
        ¬Registered jobs := by
  rw [checkKnown]
  split
  · rename_i job dependency hfind
    refine Or.inr ⟨job.name, dependency, rfl, fun hjobs => ?_⟩
    obtain ⟨hjob, hdependency⟩ := mem_dependencyPairs.mp (List.mem_of_find?_eq_some hfind)
    have hunknown := List.find?_some hfind
    rw [Option.isNone_iff_eq_none] at hunknown
    exact jobNamed?_eq_none_iff.mp hunknown (hjobs.known job hjob dependency hdependency)
  · rename_i hfind
    refine Or.inl ⟨rfl, hdistinct, fun job hjob dependency hdependency => ?_⟩
    by_contra hunknown
    apply List.find?_eq_none.mp hfind (job, dependency)
      (mem_dependencyPairs.mpr ⟨hjob, hdependency⟩)
    rw [Option.isNone_iff_eq_none]
    exact jobNamed?_eq_none_iff.mpr hunknown

theorem laterPhase?_name (hdistinct : (jobs.map Job.name).Nodup) {other : Job}
    (hother : other ∈ jobs) :
    laterPhase? jobs job other.name =
      if job.phase.rank < other.phase.rank then some other.phase else none := by
  rw [laterPhase?, jobNamed?_name hdistinct hother]

theorem checkPhases_cases (hjobs : Registered jobs) (hacyclic : Acyclic jobs) :
    (checkPhases jobs = .ok () ∧ Schedulable jobs) ∨
      ∃ name phase dependency later,
        checkPhases jobs = .error (.laterDependency name phase dependency later) ∧
          ¬Schedulable jobs := by
  rw [checkPhases]
  split
  · rename_i job dependency hfind
    obtain ⟨hjob, hdependency⟩ := mem_dependencyPairs.mp (List.mem_of_find?_eq_some hfind)
    obtain ⟨other, hother, rfl⟩ := hjobs.known job hjob dependency hdependency
    have hphase := List.find?_some hfind
    simp only [laterPhase?_name hjobs.distinct hother] at hphase ⊢
    by_cases hlater : job.phase.rank < other.phase.rank
    · refine Or.inr ⟨job.name, job.phase, other.name, other.phase, ?_, fun hschedulable => ?_⟩
      · rw [if_pos hlater]
      · exact Nat.not_le.mpr hlater (hschedulable.phases job hjob other hother hdependency)
    · rw [if_neg hlater] at hphase
      cases hphase
  · rename_i hfind
    refine Or.inl ⟨rfl, hjobs, hacyclic, fun job hjob other hother hdependency => ?_⟩
    have hphase := List.find?_eq_none.mp hfind (job, other.name)
      (mem_dependencyPairs.mpr ⟨hjob, hdependency⟩)
    by_contra hlater
    apply hphase
    dsimp only
    rw [laterPhase?_name hjobs.distinct hother, if_pos (Nat.lt_of_not_le hlater)]
    rfl

/-! ### One phase -/

/-- Jobs that have run, each of them as the first one that could. -/
structure Progress (jobs done : List Job) : Prop where
  mem : ∀ job ∈ done, job ∈ jobs
  distinct : done.Nodup
  phases : done.Pairwise (fun first second => first.phase.rank ≤ second.phase.rank)
  chosen : Chosen jobs done

/-- What has run while a phase runs: all of the earlier phases and nothing of the later ones. -/
structure InPhase (jobs : List Job) (phase : Phase) (done : List Job) : Prop
    extends Progress jobs done where
  earlier : ∀ job ∈ jobs, job.phase.rank < phase.rank → job ∈ done
  bound : ∀ job ∈ done, job.phase.rank ≤ phase.rank

/-- The jobs of a phase that have not run. -/
def waiting (jobs : List Job) (phase : Phase) (done : List Job) : List Job :=
  jobs.filter (fun job => job.phase = phase ∧ job ∉ done)

theorem mem_waiting : job ∈ waiting jobs phase done ↔
    job ∈ jobs ∧ job.phase = phase ∧ job ∉ done := by
  simp [waiting]

theorem isReady_iff : isReady done job = true ↔
    ∀ dependency ∈ job.dependencies, ∃ other ∈ done, other.name = dependency := by
  simp [isReady]

/-- While jobs of the phase wait, one of them is ready. -/
theorem InPhase.exists_ready (hjobs : Schedulable jobs) (h : InPhase jobs phase done)
    (hwaiting : waiting jobs phase done ≠ []) :
    ∃ job ∈ waiting jobs phase done, isReady done job = true := by
  obtain ⟨names, hfinished, hall⟩ := exists_finished hjobs.toRegistered hjobs.acyclic
  obtain ⟨some, hsome⟩ := List.exists_mem_of_ne_nil _ hwaiting
  obtain ⟨job, hjob, hfirst⟩ :=
    hfinished.exists_first ⟨some, hsome, hall some (mem_waiting.mp hsome).1⟩
  obtain ⟨hmem, hphase, -⟩ := mem_waiting.mp hjob
  refine ⟨job, hjob, isReady_iff.mpr fun dependency hdependency => ?_⟩
  obtain ⟨other, hother, rfl⟩ := hjobs.known job hmem dependency hdependency
  have hle := hjobs.phases job hmem other hother hdependency
  rw [hphase] at hle
  refine ⟨other, ?_, rfl⟩
  by_contra hnot
  rcases Nat.lt_or_eq_of_le hle with hlt | heq
  · exact hnot (h.earlier other hother hlt)
  · exact hfirst other (mem_waiting.mpr ⟨hother, Phase.eq_of_rank_eq heq, hnot⟩)
      ⟨job, hmem, rfl, hdependency⟩

theorem find?_waiting : (waiting jobs phase done).find? (isReady done) =
    jobs.find? (fun job => Runnable phase done job) := by
  rw [waiting, List.find?_filter]
  congr 1
  ext job
  rw [Bool.eq_iff_iff, decide_eq_true_iff, decide_eq_true_iff, decide_eq_true_iff, isReady_iff,
    and_assoc]
  rfl

/-- Without the first that passes the test, no others are missing. -/
theorem eraseP_eq_filter_ne {test : Job → Bool} (hdistinct : pending.Nodup)
    (hfind : pending.find? test = some job) :
    pending.eraseP test = pending.filter (fun other => other ≠ job) := by
  obtain ⟨htest, before, after, rfl, hbefore⟩ := List.find?_eq_some_iff_append.mp hfind
  have hskip : ∀ other ∈ before, ¬test other = true := by simpa using hbefore
  rw [List.eraseP_append_right _ hskip, List.eraseP_cons_of_pos htest]
  rw [List.nodup_append, List.nodup_cons] at hdistinct
  obtain ⟨-, ⟨hafter, -⟩, happ⟩ := hdistinct
  have hleft : before.filter (fun other => other ≠ job) = before :=
    List.filter_eq_self.mpr fun other hother => by
      simpa using happ other hother job List.mem_cons_self
  have hright : after.filter (fun other => other ≠ job) = after :=
    List.filter_eq_self.mpr fun other hother => by
      simpa using fun heq : other = job => hafter (heq ▸ hother)
  rw [List.filter_append, hleft, List.filter_cons_of_neg (by simp), hright]

theorem waiting_append : waiting jobs phase (done ++ [job]) =
    (waiting jobs phase done).filter (fun other => other ≠ job) := by
  rw [waiting, waiting, List.filter_filter]
  apply List.filter_congr
  intro other _
  rw [← Bool.decide_and, decide_eq_decide, List.mem_append, List.mem_singleton]
  tauto

theorem chosen_append (h : Chosen jobs done)
    (hnext : jobs.find? (fun other => Runnable job.phase done other) = some job) :
    Chosen jobs (done ++ [job]) := by
  intro before next after hsplit
  rcases List.eq_nil_or_concat after with rfl | ⟨rest, last, rfl⟩
  · obtain ⟨rfl, hlast⟩ := List.append_inj' hsplit rfl
    obtain rfl := List.singleton_inj.mp hlast
    exact hnext
  · rw [List.concat_eq_append, ← List.cons_append, ← List.append_assoc] at hsplit
    obtain ⟨rfl, -⟩ := List.append_inj' hsplit rfl
    exact h before next rest rfl

/-- One job more of the phase has run. -/
theorem InPhase.next (h : InPhase jobs phase done)
    (hfind : jobs.find? (fun other => Runnable phase done other) = some job) :
    InPhase jobs phase (done ++ [job]) := by
  have hmem := List.mem_of_find?_eq_some hfind
  have hrunnable : Runnable phase done job := by simpa using List.find?_some hfind
  obtain ⟨hphase, hnew, -⟩ := hrunnable
  constructor
  · constructor
    case mem => simpa [or_imp, forall_and] using ⟨h.mem, hmem⟩
    case distinct => exact List.concat_eq_append ▸ h.distinct.concat hnew
    case phases =>
      rw [List.pairwise_append]
      refine ⟨h.phases, List.pairwise_singleton _ job, ?_⟩
      simpa [hphase] using h.bound
    case chosen =>
      subst hphase
      exact chosen_append h.chosen hfind
  case earlier =>
    intro other hother hlt
    exact List.mem_append_left [job] (h.earlier other hother hlt)
  case bound => simpa [or_imp, forall_and, hphase] using h.bound

theorem runPhase_ok (hjobs : Schedulable jobs) (count : Nat) :
    ∀ done, InPhase jobs phase done → (waiting jobs phase done).length = count →
      ∃ later, runPhase phase count done (waiting jobs phase done) = .ok later ∧
        InPhase jobs phase later ∧ waiting jobs phase later = [] := by
  induction count with
  | zero =>
    intro done hdone hlength
    exact ⟨done, rfl, hdone, List.length_eq_zero_iff.mp hlength⟩
  | succ count ih =>
    intro done hdone hlength
    have hsome : waiting jobs phase done ≠ [] := by
      intro hnil
      rw [hnil] at hlength
      cases hlength
    obtain ⟨ready, hready, htest⟩ := hdone.exists_ready hjobs hsome
    obtain ⟨job, hfind⟩ : ∃ job, (waiting jobs phase done).find? (isReady done) = some job :=
      Option.isSome_iff_exists.mp (List.find?_isSome.mpr ⟨ready, hready, htest⟩)
    have hdistinct : (waiting jobs phase done).Nodup := (hjobs.distinct.of_map _).filter _
    have herase : (waiting jobs phase done).eraseP (isReady done) =
        waiting jobs phase (done ++ [job]) := by
      rw [eraseP_eq_filter_ne hdistinct hfind, waiting_append]
    have hcount : (waiting jobs phase (done ++ [job])).length = count := by
      rw [← herase, List.length_eraseP_of_mem hready htest, hlength]
      rfl
    rw [runPhase, hfind]
    dsimp only
    rw [herase]
    rw [find?_waiting] at hfind
    exact ih (done ++ [job]) (hdone.next hfind) hcount

/-! ### All phases -/

/-- The jobs of the phases below a rank have run, and no others. -/
structure Through (jobs : List Job) (rank : Nat) (done : List Job) : Prop
    extends Progress jobs done where
  exactly : ∀ job ∈ jobs, job ∈ done ↔ job.phase.rank < rank

theorem through_zero : Through jobs 0 [] :=
  ⟨⟨by simp, by simp, by simp, by simp [Chosen]⟩, by simp⟩

theorem addPhase_ok (hjobs : Schedulable jobs) (phase : Phase) (h : Through jobs phase.rank done) :
    ∃ later, addPhase jobs done phase = .ok later ∧ Through jobs (phase.rank + 1) later := by
  have hstart : InPhase jobs phase done :=
    ⟨h.toProgress, fun job hjob => (h.exactly job hjob).mpr,
      fun job hjob => ((h.exactly job (h.mem job hjob)).mp hjob).le⟩
  have hpending : jobs.filter (fun job => job.phase == phase) = waiting jobs phase done := by
    apply List.filter_congr
    intro job hjob
    rw [Bool.beq_eq_decide_eq, decide_eq_decide, iff_self_and]
    rintro rfl hdone
    exact absurd ((h.exactly job hjob).mp hdone) (lt_irrefl _)
  obtain ⟨later, hrun, hlater, hnone⟩ := runPhase_ok hjobs _ done hstart rfl
  refine ⟨later, ?_, hlater.toProgress, fun job hjob => ⟨fun hmem => ?_, fun hlt => ?_⟩⟩
  · rw [addPhase, hpending]
    exact hrun
  · exact Nat.lt_succ_of_le (hlater.bound job hmem)
  · by_contra hnot
    rcases Nat.lt_or_eq_of_le (Nat.le_of_lt_succ hlt) with hlt | heq
    · exact hnot (hlater.earlier job hjob hlt)
    · have hmem := mem_waiting.mpr ⟨hjob, Phase.eq_of_rank_eq heq, hnot⟩
      rw [hnone] at hmem
      cases hmem

theorem Through.greedy (hdistinct : (jobs.map Job.name).Nodup) (h : Through jobs 3 done) :
    Greedy jobs done where
  perm := by
    rw [List.perm_ext_iff_of_nodup h.distinct (hdistinct.of_map _)]
    intro job
    refine ⟨h.mem job, fun hjob => (h.exactly job hjob).mpr ?_⟩
    cases job.phase <;> decide
  phases := h.phases
  dependencies := by
    intro before job after hsplit
    have hrunnable : Runnable job.phase before job := by
      simpa using List.find?_some (h.chosen before job after hsplit)
    exact hrunnable.2.2
  chosen := h.chosen

theorem addPhases_ok (hjobs : Schedulable jobs) :
    ∃ order, Phase.all.foldlM (addPhase jobs) [] = .ok order ∧ Greedy jobs order := by
  obtain ⟨first, hfirst, hone⟩ := addPhase_ok hjobs .optimization through_zero
  obtain ⟨second, hsecond, htwo⟩ := addPhase_ok hjobs .consolidation hone
  obtain ⟨third, hthird, hthree⟩ := addPhase_ok hjobs .minification htwo
  refine ⟨third, ?_, hthree.greedy hjobs.distinct⟩
  rw [Phase.all, List.foldlM_cons, hfirst]
  change List.foldlM _ first _ = _
  rw [List.foldlM_cons, hsecond]
  change List.foldlM _ second _ = _
  rw [List.foldlM_cons, hthird]
  rfl

/-- Either the jobs can be scheduled, and the schedule is the greedy order, or one of the checks
reports why not. -/
theorem schedule_cases (jobs : List Job) :
    (Schedulable jobs ∧ ∃ order, schedule jobs = .ok order ∧ Greedy jobs order) ∨
      (¬Schedulable jobs ∧ ∃ error, schedule jobs = .error error ∧
        ∀ phase, error ≠ .nothingRunnable phase) := by
  rw [schedule]
  rcases checkNames_cases jobs with ⟨hnames, hdistinct⟩ | ⟨name, hnames, hnot⟩
  swap
  · rw [hnames]
    exact Or.inr ⟨fun h => hnot h.distinct, _, rfl, by simp⟩
  rcases checkKnown_cases hdistinct with ⟨hknown, hjobs⟩ | ⟨name, dependency, hknown, hnot⟩
  swap
  · rw [hnames, hknown]
    exact Or.inr ⟨fun h => hnot h.toRegistered, _, rfl, by simp⟩
  rcases checkCycles_walked hjobs with ⟨hcycles, done, hfinished, hall⟩ | ⟨path, hcycles, hcycle⟩
  swap
  · rw [hnames, hknown, hcycles]
    exact Or.inr ⟨fun h => hcycle.not_acyclic h.acyclic, _, rfl, by simp⟩
  rcases checkPhases_cases hjobs (acyclic_of_finished hfinished hall) with
    ⟨hphases, hschedulable⟩ | ⟨name, phase, dependency, later, hphases, hnot⟩
  swap
  · rw [hnames, hknown, hcycles, hphases]
    exact Or.inr ⟨hnot, _, rfl, by simp⟩
  rw [hnames, hknown, hcycles, hphases]
  exact Or.inl ⟨hschedulable, addPhases_ok hschedulable⟩

end Schedule

/-! ### Runs -/

namespace Step

open Schedule

variable {σ : Type} {steps before after : List (Step σ)} {step : Step σ}
  {outputs later : StepOutputs} {s s' : σ}

theorem find?_name (hdistinct : ((steps.map Step.toJob).map Job.name).Nodup)
    (hstep : step ∈ steps) :
    steps.find? (fun other => other.name == step.name) = some step := by
  rw [List.map_map] at hdistinct
  cases hfind : steps.find? (fun other => other.name == step.name) with
  | none =>
    have hne := List.find?_eq_none.mp hfind step hstep
    simp at hne
  | some other =>
    have hname : other.name = step.name := by simpa using List.find?_some hfind
    rw [List.inj_on_of_nodup_map hdistinct (List.mem_of_find?_eq_some hfind) hstep hname]

/-- The steps that scheduled jobs stand for. -/
def inOrder (steps : List (Step σ)) (order : List Job) : List (Step σ) :=
  order.filterMap (fun job => steps.find? (fun step => step.name == job.name))

theorem inOrder_self (hdistinct : ((steps.map Step.toJob).map Job.name).Nodup) :
    inOrder steps (steps.map Step.toJob) = steps := by
  rw [inOrder, List.filterMap_map]
  calc steps.filterMap _ = steps.filterMap some :=
        List.filterMap_congr fun step hstep => find?_name hdistinct hstep
    _ = steps := List.filterMap_some

theorem inOrder_perm (hdistinct : ((steps.map Step.toJob).map Job.name).Nodup) {order : List Job}
    (hperm : order.Perm (steps.map Step.toJob)) : (inOrder steps order).Perm steps := by
  calc (inOrder steps order).Perm (inOrder steps (steps.map Step.toJob)) := hperm.filterMap _
    _ = steps := inOrder_self hdistinct

theorem inOrder_map_toJob (hdistinct : ((steps.map Step.toJob).map Job.name).Nodup)
    {order : List Job} (hperm : order.Perm (steps.map Step.toJob)) :
    (inOrder steps order).map Step.toJob = order := by
  rw [inOrder, List.map_filterMap]
  calc order.filterMap _ = order.filterMap some := by
        apply List.filterMap_congr
        intro job hjob
        obtain ⟨step, hstep, rfl⟩ := List.mem_map.mp (hperm.mem_iff.mp hjob)
        rw [find?_name hdistinct hstep]
        rfl
    _ = order := List.filterMap_some

theorem performAll_append (hbefore : performAll before outputs s = (.ok later, s')) :
    performAll (before ++ after) outputs s = performAll after later s' := by
  induction before generalizing outputs s with
  | nil =>
    cases hbefore
    rfl
  | cons step before ih =>
    obtain ⟨output, middle, hstep, hrest⟩ := run_bind_inv hbefore
    rw [List.cons_append, performAll, run_bind hstep]
    exact ih hrest

theorem order_performAll (hrun : performAll steps outputs s = (.ok later, s')) :
    later.order = outputs.order ++ steps.map (fun step => step.name) := by
  induction steps generalizing outputs s with
  | nil =>
    cases hrun
    simp
  | cons step steps ih =>
    obtain ⟨output, middle, -, hrest⟩ := run_bind_inv hrun
    rw [ih hrest]
    simp [StepOutputs.order, StepOutputs.record]

/-! ### Performing steps -/

/-- The steps are performed one after the other and lead from the first state to the last. Each of
them sees the names of the steps before it with what these returned, and all of them return in the
end what is listed. -/
inductive Performed : List (Step σ) → List (String × Option StepOutput) → σ → σ → Prop where
  | nil (s : σ) : Performed [] [] s s
  | snoc {steps : List (Step σ)} {step : Step σ} {entries : List (String × Option StepOutput)}
      {output : Option StepOutput} {s middle s' : σ} (before : Performed steps entries s middle)
      (last : step.perform ⟨entries⟩ middle = (.ok output, s')) :
      Performed (steps ++ [step]) (entries ++ [(step.name, output)]) s s'

variable {entries : List (String × Option StepOutput)} {middle : σ} {error : CompileError}

theorem Performed.performAll (h : Performed steps entries s s') :
    performAll steps {} s = (.ok ⟨entries⟩, s') := by
  induction h with
  | nil => rfl
  | snoc before last ih =>
    rw [performAll_append ih, Step.performAll, run_bind last]
    rfl

theorem Performed.append_performAll (h : Performed before outputs.entries s middle)
    (hrun : Step.performAll steps outputs middle = (.ok later, s')) :
    Performed (before ++ steps) later.entries s s' := by
  induction steps generalizing before outputs middle with
  | nil =>
    cases hrun
    rwa [List.append_nil]
  | cons step steps ih =>
    obtain ⟨output, next, hstep, hrest⟩ := run_bind_inv hrun
    rw [List.append_cons]
    exact ih (h.snoc hstep) hrest

theorem performAll_eq_ok_iff :
    performAll steps {} s = (.ok outputs, s') ↔ Performed steps outputs.entries s s' :=
  ⟨fun hrun => (Performed.nil s).append_performAll hrun, Performed.performAll⟩

/-- After steps that succeed, a run fails where a step does. -/
theorem Performed.exists_failing (h : Performed before outputs.entries s middle)
    (hrun : Step.performAll steps outputs middle = (.error error, s')) :
    ∃ front step after entries middle, before ++ steps = front ++ step :: after ∧
      Performed front entries s middle ∧ step.perform ⟨entries⟩ middle = (.error error, s') := by
  induction steps generalizing before outputs middle with
  | nil => cases hrun
  | cons step steps ih =>
    rcases hstep : step.perform outputs middle with ⟨failure | output, next⟩
    · rw [Step.performAll, run_bind_error hstep] at hrun
      cases hrun
      exact ⟨before, step, steps, outputs.entries, middle, rfl, h, hstep⟩
    · rw [Step.performAll, run_bind hstep] at hrun
      have hnext : Performed (before ++ [step]) (outputs.record step.name output).entries s next :=
        h.snoc hstep
      rw [List.append_cons]
      exact ih hnext hrun

theorem performAll_eq_error_iff :
    performAll steps {} s = (.error error, s') ↔
      ∃ before step after entries middle, steps = before ++ step :: after ∧
        Performed before entries s middle ∧
        step.perform ⟨entries⟩ middle = (.error error, s') := by
  constructor
  · exact (Performed.nil s).exists_failing
  · rintro ⟨before, step, after, entries, middle, rfl, hbefore, hstep⟩
    rw [performAll_append hbefore.performAll, performAll, run_bind_error hstep]

/-- The outputs that a step sees are found under the names of the steps before it and under no
others. -/
structure Sees (before : List (Step σ)) (outputs : StepOutputs) : Prop where
  order : outputs.order = before.map (fun step => step.name)
  size : outputs.size = before.length
  contains : ∀ name, outputs.contains name = true ↔ ∃ step ∈ before, step.name = name
  names : ∀ name names, outputs.names? name = some names ↔
    (name, some (.renamed names)) ∈ outputs.entries

theorem lookup_eq_some_iff (hdistinct : (entries.map Prod.fst).Nodup) {name : String}
    {output : Option StepOutput} :
    entries.lookup name = some output ↔ (name, output) ∈ entries := by
  rw [List.lookup_eq_some_iff]
  constructor
  · rintro ⟨front, back, rfl, -⟩
    exact List.mem_append_right _ List.mem_cons_self
  · intro hmem
    obtain ⟨front, back, rfl⟩ := List.append_of_mem hmem
    refine ⟨front, back, rfl, fun entry hentry => bne_iff_ne.mpr ?_⟩
    rintro rfl
    rw [List.map_append, List.map_cons, List.nodup_middle] at hdistinct
    exact (List.nodup_cons.mp hdistinct).1
      (List.mem_append_left _ (List.mem_map.mpr ⟨entry, hentry, rfl⟩))

theorem names?_eq_some_iff (hdistinct : outputs.order.Nodup) {name : String} {names : Renaming} :
    outputs.names? name = some names ↔ (name, some (.renamed names)) ∈ outputs.entries := by
  rw [← lookup_eq_some_iff hdistinct, StepOutputs.names?]
  split
  · next found hlookup => simp [hlookup]
  · next hother =>
    exact iff_of_false (by simp) fun hlookup => hother names hlookup

theorem sees_of_performAll (hdistinct : (before.map (fun step => step.name)).Nodup)
    (hrun : performAll before {} s = (.ok outputs, s')) : Sees before outputs := by
  have horder : outputs.order = before.map (fun step => step.name) := order_performAll hrun
  refine ⟨horder, ?_, fun name => ?_, fun name names => names?_eq_some_iff (horder ▸ hdistinct)⟩
  · calc outputs.size = outputs.order.length := (List.length_map _).symm
      _ = before.length := by rw [horder, List.length_map]
  · calc outputs.contains name = true ↔ name ∈ outputs.order := by
          simp [StepOutputs.contains, StepOutputs.order]
      _ ↔ ∃ step ∈ before, step.name = name := by rw [horder, List.mem_map]

/-- A run performs the steps in this order. It succeeds if all of them do, and fails like the first
one that fails. When the turn of a step comes, it is performed on what the steps before it returned,
among them all it depends on, and then the steps after it are. -/
structure PerformsInOrder (steps ordered : List (Step σ)) : Prop where
  perm : ordered.Perm steps
  run : run steps = performAll ordered {}
  succeeds : ∀ s outputs s', Step.run steps s = (.ok outputs, s') ↔
    Performed ordered outputs.entries s s'
  fails : ∀ s error s', Step.run steps s = (.error error, s') ↔
    ∃ before step after entries middle, ordered = before ++ step :: after ∧
      Performed before entries s middle ∧ step.perform ⟨entries⟩ middle = (.error error, s')
  turn : ∀ before step after, ordered = before ++ step :: after →
    ∀ s outputs s', performAll before {} s = (.ok outputs, s') →
      Performed before outputs.entries s s' ∧ Sees before outputs ∧
      (∀ dependency ∈ step.dependencies, outputs.contains dependency = true) ∧
      Step.run steps s = (do
        let output ← step.perform outputs
        performAll after (outputs.record step.name output)) s'

theorem performsInOrder (hdistinct : ((steps.map Step.toJob).map Job.name).Nodup) {order : List Job}
    (hschedule : schedule (steps.map Step.toJob) = .ok order)
    (hgreedy : Greedy (steps.map Step.toJob) order) :
    PerformsInOrder steps (inOrder steps order) := by
  have hperm := inOrder_perm hdistinct hgreedy.perm
  have hrun : run steps = performAll (inOrder steps order) {} := by
    rw [run, hschedule]
    rfl
  refine ⟨hperm, hrun, fun s outputs s' => hrun ▸ performAll_eq_ok_iff,
    fun s error s' => hrun ▸ performAll_eq_error_iff, ?_⟩
  intro before step after hsplit s outputs s' hbefore
  have hnames : (before.map (fun step => step.name)).Nodup := by
    rw [List.map_map] at hdistinct
    have hall := (hperm.map (fun step => step.name)).nodup_iff.mpr hdistinct
    rw [hsplit, List.map_append] at hall
    exact hall.of_append_left
  have hsees := sees_of_performAll hnames hbefore
  refine ⟨performAll_eq_ok_iff.mp hbefore, hsees, fun dependency hdependency => ?_, ?_⟩
  · have hjobs : order = before.map Step.toJob ++ step.toJob :: after.map Step.toJob := by
      rw [← inOrder_map_toJob hdistinct hgreedy.perm, hsplit, List.map_append, List.map_cons]
    obtain ⟨job, hjob, rfl⟩ := hgreedy.dependencies _ _ _ hjobs dependency hdependency
    obtain ⟨other, hother, rfl⟩ := List.mem_map.mp hjob
    exact (hsees.contains _).mpr ⟨other, hother, rfl⟩
  · rw [hrun, hsplit, performAll_append hbefore]
    rfl

/-- Registered steps can be scheduled exactly if their names differ, all dependencies are known and
belong to no later phase, and there is no cycle. The schedule is then the greedy order of all steps
and a run performs them in it; otherwise a check says why not, and a run performs nothing. -/
theorem run_scheduled (steps : List (Step σ)) :
    ((∃ order, schedule (steps.map Step.toJob) = .ok order) ↔
        Schedulable (steps.map Step.toJob)) ∧
      (∀ order, schedule (steps.map Step.toJob) = .ok order →
        Greedy (steps.map Step.toJob) order ∧
          ∃ ordered, ordered.map Step.toJob = order ∧ PerformsInOrder steps ordered) ∧
      (∀ error, schedule (steps.map Step.toJob) = .error error →
        (∀ phase, error ≠ .nothingRunnable phase) ∧
          ∀ s, run steps s = (.error (CompileError.ofSchedule error), s)) := by
  rcases schedule_cases (steps.map Step.toJob) with
    ⟨hjobs, order, hschedule, hgreedy⟩ | ⟨hnot, error, hschedule, hchecked⟩
  · refine ⟨iff_of_true ⟨order, hschedule⟩ hjobs, fun other hother => ?_, fun error herror => ?_⟩
    · obtain rfl : order = other := Except.ok.inj (hschedule.symm.trans hother)
      exact ⟨hgreedy, inOrder steps order, inOrder_map_toJob hjobs.distinct hgreedy.perm,
        performsInOrder hjobs.distinct hschedule hgreedy⟩
    · cases hschedule.symm.trans herror
  · refine ⟨iff_of_false ?_ hnot, fun order horder => ?_, fun other hother => ?_⟩
    · rintro ⟨order, horder⟩
      cases hschedule.symm.trans horder
    · cases hschedule.symm.trans horder
    · obtain rfl : error = other := Except.error.inj (hschedule.symm.trans hother)
      refine ⟨hchecked, fun s => ?_⟩
      rw [run, hschedule]
      rfl

/-- Steps that are registered in the opposite order. The second publishes again what the first did,
the third counts those before it. -/
def relay : List (Step Nat) :=
  [⟨⟨"third", .minification, []⟩, fun outputs => do set outputs.size; return none⟩,
    ⟨⟨"second", .optimization, ["first"]⟩, fun outputs =>
      return (outputs.entries.lookup "first").join⟩,
    ⟨⟨"first", .optimization, []⟩, fun _ => return some (.count 1)⟩]

/-- A step that was registered before the one it depends on waits for it and sees what that one
published, while the next phase waits for both. -/
theorem run_scheduled_outOfOrder :
    ∃ ordered, ordered.map Step.toJob =
        [⟨"first", .optimization, []⟩, ⟨"second", .optimization, ["first"]⟩,
          ⟨"third", .minification, []⟩] ∧
      PerformsInOrder relay ordered ∧
      ∀ s, Performed ordered
        [("first", some (.count 1)), ("second", some (.count 1)), ("third", none)] s 2 := by
  obtain ⟨ordered, hjobs, hperforms⟩ := ((run_scheduled relay).2.1 _ rfl).2
  exact ⟨ordered, hjobs, hperforms, fun s => (hperforms.succeeds s ⟨_⟩ 2).mp rfl⟩

end Step

end GlslShrink
