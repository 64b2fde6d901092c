/-
The thread pool of `include/threading/thread_pool.h`.

One thread registers jobs with `do_job` and runs rounds of `do_jobs` and `wait_threads`,
as `ue_handler::step` and `mac_layer::step` do; the workers run `thread_entry`.  A step is
one call of the caller, one section of a worker under the lock, or one job, and the
threads interleave them in any order.  A thread that finds its condition false stays where
it is, whoever notifies it.

`ran` is a history variable: the jobs executed since `do_jobs` was called last.  Nothing
in the model reads it.
-/
import NetworkEmulator.Library.Runs

namespace NetworkEmulator

/-- Where a worker is in `thread_entry`. -/
inductive WorkerPc (Job : Type) where
  /-- At the section that takes a job. -/
  | waiting
  /-- With a job, which it has not run. -/
  | taken (job : Job)
  /-- At the section after the job. -/
  | finishing
  /-- It has left `thread_entry`. -/
  | returned
  deriving DecidableEq, Repr

/-- Where the caller is. -/
inductive CallerPc where
  /-- Between two rounds. -/
  | between
  /-- In `wait_threads`. -/
  | waiting
  /-- In the destructor. -/
  | joining
  deriving DecidableEq, Repr

/-- `thread_pool`, with where its threads are.  `index` has no initial value. -/
structure ThreadPool (W Job : Type) where
  index : ℤ
  goal : ℤ := 0
  busy : ℤ := 0
  shutdown : Bool := false
  jobs : List Job := []
  isRunning : Bool := false
  workers : W → WorkerPc Job := fun _ => .waiting
  caller : CallerPc := .between
  ran : List Job := []

/-- A step of one of the threads. -/
inductive PoolStep (W Job : Type) where
  | doJob (func : Job)
  | doJobs
  | waitThreads
  | destroy
  | threadEntry (w : W)

namespace ThreadPool

variable {W Job : Type} [DecidableEq W]

/-- `do_job`. -/
def doJob (s : ThreadPool W Job) (func : Job) : ThreadPool W Job :=
  { s with goal := s.goal + 1, jobs := s.jobs ++ [func] }

/-- `do_jobs`. -/
def doJobs (s : ThreadPool W Job) : ThreadPool W Job :=
  if s.isRunning then s else { s with isRunning := true, index := 0, busy := s.goal }

/-- The predicate of `wait_threads`. -/
def mayReturn (s : ThreadPool W Job) : Bool := !s.isRunning || s.jobs.isEmpty

/-- Whether `thread_entry` finds no job to take. -/
def noJob (s : ThreadPool W Job) : Bool :=
  !s.isRunning || decide (s.goal ≤ s.index) || s.jobs.isEmpty

/-- `jobs_[i]`; `none` is an index out of range. -/
def jobAt (s : ThreadPool W Job) (i : ℤ) : Option Job := if i < 0 then none else s.jobs[i.toNat]?

/-- A worker goes on to `pc`. -/
def goTo (s : ThreadPool W Job) (w : W) (pc : WorkerPc Job) : ThreadPool W Job :=
  { s with workers := Function.update s.workers w pc }

@[simp] theorem workers_goTo (s : ThreadPool W Job) (w : W) (pc : WorkerPc Job) :
    (s.goTo w pc).workers = Function.update s.workers w pc := rfl

/-- The first section of `thread_entry`; `none` is a worker that goes on waiting.  The
test `index + 1 <= goal` of the source repeats that there is a job. -/
def takeJob (s : ThreadPool W Job) (w : W) : Option (ThreadPool W Job) :=
  if s.noJob then if s.shutdown then some (s.goTo w .returned) else none
  else (s.jobAt s.index).map fun job => { s with index := s.index + 1 }.goTo w (.taken job)

/-- The second section of `thread_entry`. -/
def finishJob (s : ThreadPool W Job) (w : W) : ThreadPool W Job :=
  let s := { s with busy := s.busy - 1 }.goTo w .waiting
  if s.busy = 0 then { s with isRunning := false } else s

/-- A step of `thread_entry`. -/
def threadEntry (s : ThreadPool W Job) (w : W) : Option (ThreadPool W Job) :=
  match s.workers w with
  | .waiting => s.takeJob w
  | .taken job => some ({ s with ran := s.ran ++ [job] }.goTo w .finishing)
  | .finishing => some (s.finishJob w)
  | .returned => none

/-- A step of the pool; `none` when the thread is not there or has to wait. -/
def step (s : ThreadPool W Job) : PoolStep W Job → Option (ThreadPool W Job)
  | .doJob func => if s.caller = .between then some (s.doJob func) else none
  | .doJobs =>
    if s.caller = .between then some { s.doJobs with caller := .waiting, ran := [] } else none
  | .waitThreads =>
    if s.caller = .waiting ∧ s.mayReturn then some { s with caller := .between } else none
  | .destroy =>
    if s.caller = .between then some { s with shutdown := true, caller := .joining } else none
  | .threadEntry w => s.threadEntry w

/-- The pool after `init`. -/
def init (index : ℤ) : ThreadPool W Job := { index := index }

/-- A run of the pool. -/
def exec (s : ThreadPool W Job) (as : List (PoolStep W Job)) : Option (ThreadPool W Job) :=
  Runs.runAll step s as

end ThreadPool

end NetworkEmulator
