/-
The thread pool with what its jobs do, `include/threading/thread_pool.h`.

For `ThreadPool` a job is one step.  Here a job is a list of calls on a state that all jobs
share: a worker makes one call at a time, and the calls of different workers interleave.  A
schedule says which worker goes next, until the caller returns from `wait_threads`.
-/
import NetworkEmulator.Model.ThreadPool

namespace NetworkEmulator

/-- The calls each job makes, and what a call does to the shared state. -/
structure JobCode (Job Call σ : Type) where
  calls : Job → List Call
  call : Job → σ → Call → Option σ

/-- `thread_pool`, the shared state, and the calls each worker has yet to make. -/
structure SharedPool (W Job Call σ : Type) where
  pool : ThreadPool W Job
  shared : σ
  left : W → List Call := fun _ => []

namespace SharedPool

variable {W Job Call σ : Type} [DecidableEq W]

/-- The calls a worker has before it when it has taken a job. -/
def toMake (code : JobCode Job Call σ) : WorkerPc Job → List Call
  | .taken job => code.calls job
  | _ => []

/-- A step of `thread_entry`: a worker with a job makes its next call. -/
def threadEntry (code : JobCode Job Call σ) (s : SharedPool W Job Call σ) (w : W) :
    Option (SharedPool W Job Call σ) :=
  match s.pool.workers w, s.left w with
  | .taken job, a :: rest =>
    (code.call job s.shared a).map fun shared =>
      { s with shared := shared, left := Function.update s.left w rest }
  | .waiting, _ =>
    (s.pool.step (.threadEntry w)).map fun pool =>
      { s with pool := pool, left := Function.update s.left w (toMake code (pool.workers w)) }
  | _, _ => (s.pool.step (.threadEntry w)).map fun pool => { s with pool := pool }

/-- `do_jobs`. -/
def doJobs (s : SharedPool W Job Call σ) : Option (SharedPool W Job Call σ) :=
  (s.pool.step .doJobs).map fun pool => { s with pool := pool }

/-- `wait_threads` returns. -/
def waitThreads (s : SharedPool W Job Call σ) : Option (SharedPool W Job Call σ) :=
  (s.pool.step .waitThreads).map fun pool => { s with pool := pool }

/-- `do_jobs` and `wait_threads`, with the steps of the workers in between. -/
def round (code : JobCode Job Call σ) (s : SharedPool W Job Call σ) (schedule : List W) :
    Option (SharedPool W Job Call σ) :=
  s.doJobs.bind fun s => (Runs.runAll (threadEntry code) s schedule).bind waitThreads

end SharedPool

end NetworkEmulator
