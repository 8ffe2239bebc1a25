/-!
The order of the steps of a compilation. Steps belong to phases that run one after the other; within
a phase a step waits for the steps it depends on, and of those that can run the one registered first
goes first. What can not be scheduled is reported before anything runs: names used twice, unknown
dependencies, cycles, and dependencies on later phases, in that order.
-/

set_option autoImplicit false

namespace GlslShrink

inductive Phase where
  | optimization
  | consolidation
  | minification
  deriving DecidableEq, Repr

namespace Phase

def all : List Phase :=
  [optimization, consolidation, minification]

def rank : Phase → Nat
  | optimization => 0
  | consolidation => 1
  | minification => 2

def name : Phase → String
  | optimization => "Optimization"
  | consolidation => "Consolidation"
  | minification => "Minification"

end Phase

/-- What the scheduler knows of a step. -/
structure Job where
  name : String
  phase : Phase
  dependencies : List String := []
  deriving DecidableEq, Repr

/-- Why steps can not be scheduled. -/
inductive ScheduleError where
  | duplicate (name : String)
  | unknownDependency (name dependency : String)
  /-- The names of steps that depend on each other, each on the next, the first again at the end. -/
  | cycle (path : List String)
  | laterDependency (name : String) (phase : Phase) (dependency : String) (later : Phase)
  | nothingRunnable (phase : Phase)
  deriving DecidableEq, Repr

namespace Schedule

/-- The first name that was used before. -/
def duplicate? : List String → List Job → Option String
  | _, [] => none
  | seen, job :: jobs =>
    if seen.contains job.name then some job.name else duplicate? (job.name :: seen) jobs

def jobNamed? (jobs : List Job) (name : String) : Option Job :=
  jobs.find? (fun job => job.name == name)

/-- All pairs of a job and the name of one of its dependencies, in order. -/
def dependencyPairs (jobs : List Job) : List (Job × String) :=
  jobs.flatMap (fun job => job.dependencies.map (fun dependency => (job, dependency)))

def checkNames (jobs : List Job) : Except ScheduleError Unit :=
  match duplicate? [] jobs with
  | some name => .error (.duplicate name)
  | none => .ok ()

def checkKnown (jobs : List Job) : Except ScheduleError Unit :=
  match (dependencyPairs jobs).find? (fun (_, dependency) => (jobNamed? jobs dependency).isNone) with
  | some (job, dependency) => .error (.unknownDependency job.name dependency)
  | none => .ok ()

/-- Whether the dependency of a job belongs to a later phase. -/
def laterPhase? (jobs : List Job) (job : Job) (dependency : String) : Option Phase :=
  match jobNamed? jobs dependency with
  | some other => if job.phase.rank < other.phase.rank then some other.phase else none
  | none => none

def checkPhases (jobs : List Job) : Except ScheduleError Unit :=
  match (dependencyPairs jobs).find? (fun (job, dependency) =>
    (laterPhase? jobs job dependency).isSome) with
  | some (job, dependency) =>
    match laterPhase? jobs job dependency with
    | some later => .error (.laterDependency job.name job.phase dependency later)
    | none => .ok ()
  | none => .ok ()

/-- The jobs from `target` on along a path that leads to the last of `stack`, kept innermost first,
after that last one itself. -/
def cyclePath (stack : List Job) (target : String) : List String :=
  (stack.take 1).map Job.name ++
    (stack.reverse.dropWhile (fun job => job.name != target)).map Job.name

/-- Visits a job and, before it is done, all jobs it depends on. `stack` holds the jobs around it,
innermost first, and `done` the names of finished jobs. The names on the stack are different, so
`depth` need not exceed the number of jobs. -/
def visit (jobs : List Job) (depth : Nat) (stack : List Job) (done : List String) (job : Job) :
    Except ScheduleError (List String) :=
  match depth with
  | 0 => .ok done
  | depth + 1 => do
    let stack := job :: stack
    let done ← job.dependencies.foldlM (fun done dependency =>
      if done.contains dependency then .ok done
      else if stack.any (fun around => around.name == dependency) then
        .error (.cycle (cyclePath stack dependency))
      else
        match jobNamed? jobs dependency with
        | some other => visit jobs depth stack done other
        | none => .ok done) done
    return job.name :: done

/-- The jobs by phase, and in the order of registration within a phase. -/
def byPhase (jobs : List Job) : List Job :=
  Phase.all.flatMap (fun phase => jobs.filter (fun job => job.phase == phase))

def checkCycles (jobs : List Job) : Except ScheduleError Unit := do
  let _ ← (byPhase jobs).foldlM (fun done job =>
    if done.contains job.name then .ok done else visit jobs jobs.length [] done job) []
  return ()

/-- Whether all dependencies of a job are among the jobs that have run. -/
def isReady (done : List Job) (job : Job) : Bool :=
  job.dependencies.all (fun dependency => done.any (fun other => other.name == dependency))

/-- Lets the pending jobs of a phase run one after the other, always the first one that is ready;
`done` lists the jobs that have run. -/
def runPhase (phase : Phase) : (count : Nat) → (done pending : List Job) →
    Except ScheduleError (List Job)
  | 0, done, _ => .ok done
  | count + 1, done, pending =>
    match pending.find? (isReady done) with
    | some job =>
      runPhase phase count (done ++ [job]) (pending.eraseP (isReady done))
    | none => .error (.nothingRunnable phase)

/-- Lets the jobs of one phase run after those in `done`. -/
def addPhase (jobs done : List Job) (phase : Phase) : Except ScheduleError (List Job) :=
  let pending := jobs.filter (fun job => job.phase == phase)
  runPhase phase pending.length done pending

end Schedule

/-- The order in which the jobs run. -/
def schedule (jobs : List Job) : Except ScheduleError (List Job) := do
  Schedule.checkNames jobs
  Schedule.checkKnown jobs
  Schedule.checkCycles jobs
  Schedule.checkPhases jobs
  Phase.all.foldlM (Schedule.addPhase jobs) []

end GlslShrink
