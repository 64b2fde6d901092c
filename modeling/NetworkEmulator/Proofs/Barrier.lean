/-
The thread pool is a barrier.

Between `do_jobs` and the last `busy--`, a job is in one of three places: not yet reached
by `index`, in the hands of a worker, or run.  `busy` counts those that are not finished,
so it comes down to 0 only when `index` has passed all jobs and no worker has one: then
every job was run once, and that is the only way `isRunning` is taken back.
-/
import NetworkEmulator.Model.ThreadPool

namespace NetworkEmulator

/-- The job a worker has taken and not run. -/
def WorkerPc.held {Job : Type} : WorkerPc Job → Multiset Job
  | .taken job => {job}
  | _ => 0

/-- Whether a worker has a job that is not counted as finished. -/
def WorkerPc.unfinished {Job : Type} : WorkerPc Job → ℤ
  | .taken _ => 1
  | .finishing => 1
  | _ => 0

/-- A worker without a job. -/
def WorkerPc.Idle {Job : Type} (pc : WorkerPc Job) : Prop := pc = .waiting ∨ pc = .returned

theorem WorkerPc.unfinished_nonneg {Job : Type} (pc : WorkerPc Job) : 0 ≤ pc.unfinished := by
  cases pc <;> simp [unfinished]

theorem WorkerPc.idle_iff {Job : Type} {pc : WorkerPc Job} : pc.Idle ↔ pc.unfinished = 0 := by
  cases pc <;> simp [unfinished, Idle]

theorem WorkerPc.Idle.held {Job : Type} {pc : WorkerPc Job} (h : pc.Idle) : pc.held = 0 := by
  rcases h with rfl | rfl <;> rfl

/-- A sum over all threads when one of them goes on. -/
theorem sum_update {W P M : Type} [DecidableEq W] [Fintype W] [AddCommMonoid M] (f : W → P)
    (g : P → M) (w : W) (b : P) :
    ∑ v, g (Function.update f w b v) + g (f w) = ∑ v, g (f v) + g b := by
  have hrest : ∑ v ∈ Finset.univ.erase w, g (Function.update f w b v)
      = ∑ v ∈ Finset.univ.erase w, g (f v) := by
    refine Finset.sum_congr rfl fun v hv => ?_
    rw [Function.update_of_ne (Finset.ne_of_mem_erase hv)]
  rw [← Finset.add_sum_erase _ _ (Finset.mem_univ w), hrest,
    ← Finset.add_sum_erase _ (fun v => g (f v)) (Finset.mem_univ w), Function.update_self]
  abel

namespace ThreadPool

variable {W Job : Type} [Fintype W]

/-- The jobs that workers have taken and not run. -/
def held (s : ThreadPool W Job) : Multiset Job := ∑ w, (s.workers w).held

/-- How many workers have a job that is not counted as finished. -/
def unfinished (s : ThreadPool W Job) : ℤ := ∑ w, (s.workers w).unfinished

theorem unfinished_nonneg (s : ThreadPool W Job) : 0 ≤ s.unfinished :=
  Finset.sum_nonneg fun w _ => (s.workers w).unfinished_nonneg

/-- When no worker has an unfinished job, all are idle. -/
theorem idle_of_unfinished {s : ThreadPool W Job} (h : s.unfinished = 0) (w : W) :
    (s.workers w).Idle :=
  WorkerPc.idle_iff.mpr
    ((Finset.sum_eq_zero_iff_of_nonneg fun v _ => (s.workers v).unfinished_nonneg).mp h w
      (Finset.mem_univ w))

/-! ### The invariant -/

/-- While the round runs: the caller waits, `busy` counts the jobs that are not finished, and
those that `index` has passed are run or in the hands of a worker. -/
structure Running (s : ThreadPool W Job) : Prop where
  caller : s.caller = .waiting
  up : s.shutdown = false
  present : ∀ w, s.workers w ≠ .returned
  low : 0 ≤ s.index
  high : s.index ≤ s.goal
  busy : s.busy = s.goal - s.index + s.unfinished
  pos : 0 < s.busy
  passed : (s.ran : Multiset Job) + s.held = s.jobs.take s.index.toNat

/-- While no round runs: no worker has a job, and when the caller has yet to return, every
job was run once. -/
structure Resting (s : ThreadPool W Job) : Prop where
  idle : ∀ w, (s.workers w).Idle
  up : s.caller ≠ .joining → s.shutdown = false ∧ ∀ w, s.workers w = .waiting
  ran : s.caller = .waiting → s.ran.Perm s.jobs

/-- What every step keeps. -/
structure Sound (s : ThreadPool W Job) : Prop where
  goal : s.goal = s.jobs.length
  someJob : s.caller = .waiting → s.jobs ≠ []
  phase : (s.isRunning = true → s.Running) ∧ (s.isRunning = false → s.Resting)

/-- No round runs while the caller is elsewhere. -/
private theorem Sound.resting {s : ThreadPool W Job} (h : s.Sound) (hcaller : s.caller ≠ .waiting) :
    s.isRunning = false ∧ s.Resting := by
  have hrun : s.isRunning = false := by
    by_contra hrun
    exact hcaller (h.phase.1 (by simpa using hrun)).caller
  exact ⟨hrun, h.phase.2 hrun⟩

private theorem Sound.of_running {s : ThreadPool W Job} (hrun : s.isRunning = true)
    (hgoal : s.goal = s.jobs.length) (hjob : s.jobs ≠ []) (h : s.Running) : s.Sound :=
  ⟨hgoal, fun _ => hjob, fun _ => h, fun hno => absurd hno (by simp [hrun])⟩

private theorem Sound.of_resting {s : ThreadPool W Job} (hrun : s.isRunning = false)
    (hgoal : s.goal = s.jobs.length) (hjob : s.caller = .waiting → s.jobs ≠ []) (h : s.Resting) :
    s.Sound := ⟨hgoal, hjob, fun hno => absurd hno (by simp [hrun]), fun _ => h⟩

/-! ### The steps of the caller -/

private theorem Sound.doJob {s : ThreadPool W Job} (h : s.Sound) (hcaller : s.caller = .between)
    (func : Job) : (s.doJob func).Sound := by
  obtain ⟨hrun, hrest⟩ := h.resting (by rw [hcaller]; decide)
  refine .of_resting hrun ?_ (fun _ => by simp [ThreadPool.doJob]) ⟨hrest.idle, hrest.up, ?_⟩
  · simp only [ThreadPool.doJob, h.goal]
    push_cast [List.length_append, List.length_singleton]
    rfl
  · intro hwait
    exact absurd (hcaller.symm.trans hwait) (by decide)

/-- `do_jobs` starts a round. -/
private theorem Sound.doJobs {s : ThreadPool W Job} (h : s.Sound) (hcaller : s.caller = .between)
    (hjob : s.jobs ≠ []) : ({ s.doJobs with caller := .waiting, ran := [] } :
      ThreadPool W Job).Sound := by
  obtain ⟨hrun, hrest⟩ := h.resting (by rw [hcaller]; decide)
  obtain ⟨hup, hwait⟩ := hrest.up (by rw [hcaller]; decide)
  have hunfinished : s.unfinished = 0 :=
    Finset.sum_eq_zero fun w _ => WorkerPc.idle_iff.mp (hrest.idle w)
  have hheld : s.held = 0 := Finset.sum_eq_zero fun w _ => (hrest.idle w).held
  have hlen : 0 < s.jobs.length := List.length_pos_iff.mpr hjob
  have hdo : s.doJobs = { s with isRunning := true, index := 0, busy := s.goal } := by
    rw [ThreadPool.doJobs, if_neg (by simp [hrun])]
  rw [hdo]
  refine .of_running rfl h.goal hjob
    { caller := rfl, up := hup, present := fun w => by rw [hwait w]; simp, low := le_rfl
      high := ?_, busy := ?_, pos := ?_, passed := ?_ }
  · show 0 ≤ s.goal
    rw [h.goal]; positivity
  · show s.goal = s.goal - 0 + s.unfinished
    rw [hunfinished]; ring
  · show 0 < s.goal
    rw [h.goal]; exact_mod_cast hlen
  · show ((([] : List Job) : Multiset Job)) + s.held = _
    rw [hheld]; simp

/-- The caller returns once the round is over. -/
theorem Sound.waitThreads {s : ThreadPool W Job} (h : s.Sound)
    (hcaller : s.caller = .waiting) (hmay : s.mayReturn = true) :
    (s.isRunning = false ∧ s.Resting) ∧
      ({ s with caller := .between } : ThreadPool W Job).Sound := by
  have hrun : s.isRunning = false := by
    have hjob : s.jobs.isEmpty = false := by simpa using h.someJob hcaller
    simpa [mayReturn, hjob] using hmay
  have hrest := h.phase.2 hrun
  have hup := hrest.up (by rw [hcaller]; decide)
  exact ⟨⟨hrun, hrest⟩, .of_resting hrun h.goal (fun hno => by cases hno)
    ⟨hrest.idle, fun _ => hup, fun hno => by cases hno⟩⟩

private theorem Sound.destroy {s : ThreadPool W Job} (h : s.Sound) (hcaller : s.caller = .between) :
    ({ s with shutdown := true, caller := .joining } : ThreadPool W Job).Sound := by
  obtain ⟨hrun, hrest⟩ := h.resting (by rw [hcaller]; decide)
  exact .of_resting hrun h.goal (fun hno => by cases hno)
    ⟨hrest.idle, fun hno => absurd rfl hno, fun hno => by cases hno⟩

/-! ### The steps of a worker -/

/-- A worker with a job is part of a round. -/
private theorem Sound.running {s : ThreadPool W Job} (h : s.Sound) {w : W}
    (hw : ¬(s.workers w).Idle) : s.isRunning = true ∧ s.Running := by
  have hrun : s.isRunning = true := by
    by_contra hrun
    exact hw ((h.phase.2 (by simpa using hrun)).idle w)
  exact ⟨hrun, h.phase.1 hrun⟩

variable [DecidableEq W]

private theorem held_goTo (s : ThreadPool W Job) (w : W) (pc : WorkerPc Job) :
    (s.goTo w pc).held + (s.workers w).held = s.held + pc.held := sum_update _ _ w pc

private theorem unfinished_goTo (s : ThreadPool W Job) (w : W) (pc : WorkerPc Job) :
    (s.goTo w pc).unfinished + (s.workers w).unfinished = s.unfinished + pc.unfinished :=
  sum_update _ _ w pc

omit [Fintype W] in
private theorem forall_goTo {P : WorkerPc Job → Prop} {s : ThreadPool W Job} {w : W}
    {pc : WorkerPc Job} (h : ∀ v, P (s.workers v)) (hpc : P pc) (v : W) :
    P ((s.goTo w pc).workers v) := by
  rw [workers_goTo]
  by_cases hv : v = w
  · rw [hv, Function.update_self]; exact hpc
  · rw [Function.update_of_ne hv]; exact h v

omit [Fintype W] [DecidableEq W] in
theorem jobAt_take {s : ThreadPool W Job} {job : Job} (hlow : 0 ≤ s.index)
    (hjob : s.jobAt s.index = some job) :
    s.jobs.take (s.index + 1).toNat = s.jobs.take s.index.toNat ++ [job] := by
  rw [jobAt, if_neg (not_lt.mpr hlow)] at hjob
  have hnext : (s.index + 1).toNat = s.index.toNat + 1 := by omega
  rw [hnext, List.take_add_one, hjob]
  rfl

private theorem Sound.takeJob {s s' : ThreadPool W Job} (h : s.Sound) {w : W}
    (hw : s.workers w = .waiting) (hstep : s.takeJob w = some s') : s'.Sound := by
  unfold ThreadPool.takeJob at hstep
  split at hstep
  · split at hstep
    · rename_i hdown
      obtain rfl := Option.some.inj hstep
      -- the pool is shutting down, so no round runs
      have hrun : s.isRunning = false := by
        by_contra hrun
        exact absurd (h.phase.1 (by simpa using hrun)).up (by simp [hdown])
      have hrest := h.phase.2 hrun
      refine .of_resting hrun h.goal h.someJob
        ⟨forall_goTo hrest.idle (Or.inr rfl), fun hup => ?_, hrest.ran⟩
      exact absurd (hrest.up hup).1 (by simp [hdown])
    · cases hstep
  · rename_i hsome
    obtain ⟨job, hjob, rfl⟩ := Option.map_eq_some_iff.mp hstep
    obtain ⟨⟨hrun, hlt⟩, hne⟩ : (s.isRunning = true ∧ s.index < s.goal) ∧ s.jobs ≠ [] := by
      simpa [noJob] using hsome
    have hround := h.phase.1 hrun
    have hheld := held_goTo s w (.taken job)
    have hunfinished := unfinished_goTo s w (.taken job)
    rw [hw] at hheld hunfinished
    refine .of_running hrun h.goal hne
      { caller := hround.caller, up := hround.up
        present := forall_goTo (P := (· ≠ .returned)) hround.present (by simp)
        low := by have hlow := hround.low; show 0 ≤ s.index + 1; omega
        high := by show s.index + 1 ≤ s.goal; omega
        busy := ?_, pos := hround.pos, passed := ?_ }
    · show s.busy = s.goal - (s.index + 1) + (s.goTo w (.taken job)).unfinished
      have hbusy := hround.busy
      simp only [WorkerPc.unfinished] at hunfinished
      omega
    · show (s.ran : Multiset Job) + (s.goTo w (.taken job)).held
        = s.jobs.take (s.index + 1).toNat
      have hnew : (s.goTo w (.taken job)).held = s.held + {job} := by
        simpa [WorkerPc.held] using hheld
      rw [jobAt_take hround.low hjob, ← Multiset.coe_add, ← hround.passed, hnew, add_assoc]
      rfl

/-- A job is run by the worker that took it. -/
private theorem Sound.runJob {s : ThreadPool W Job} (h : s.Sound) {w : W} {job : Job}
    (hw : s.workers w = .taken job) :
    (({ s with ran := s.ran ++ [job] } : ThreadPool W Job).goTo w .finishing).Sound := by
  obtain ⟨hrun, hround⟩ := h.running (w := w) (by rw [hw]; simp [WorkerPc.Idle])
  have hheld := held_goTo s w .finishing
  have hunfinished := unfinished_goTo s w .finishing
  rw [hw] at hheld hunfinished
  refine .of_running hrun h.goal (h.someJob hround.caller)
    { caller := hround.caller, up := hround.up
      present := forall_goTo (P := (· ≠ .returned)) hround.present (by simp)
      low := hround.low, high := hround.high, busy := ?_, pos := hround.pos, passed := ?_ }
  · show s.busy = s.goal - s.index + (s.goTo w .finishing).unfinished
    have hbusy := hround.busy
    simp only [WorkerPc.unfinished] at hunfinished
    omega
  · show ((s.ran ++ [job] : List Job) : Multiset Job) + (s.goTo w .finishing).held
      = s.jobs.take s.index.toNat
    have hold : s.held = (s.goTo w .finishing).held + {job} := by
      simpa [WorkerPc.held] using hheld.symm
    rw [← hround.passed, hold, ← Multiset.coe_add, Multiset.coe_singleton]
    abel

/-- The last worker to finish ends the round. -/
private theorem Sound.finishJob {s : ThreadPool W Job} (h : s.Sound) {w : W}
    (hw : s.workers w = .finishing) : (s.finishJob w).Sound := by
  obtain ⟨hrun, hround⟩ := h.running (w := w) (by rw [hw]; simp [WorkerPc.Idle])
  have hheld := held_goTo s w .waiting
  have hunfinished := unfinished_goTo s w .waiting
  rw [hw] at hheld hunfinished
  simp only [WorkerPc.held, WorkerPc.unfinished, add_zero] at hheld hunfinished
  have hbusy : s.busy - 1 = s.goal - s.index + (s.goTo w .waiting).unfinished := by
    have hbusy := hround.busy
    omega
  have hpresent : ∀ v, (s.goTo w .waiting).workers v ≠ .returned :=
    forall_goTo (P := (· ≠ .returned)) hround.present (by simp)
  unfold ThreadPool.finishJob
  simp only
  split
  · rename_i hlast
    change s.busy - 1 = 0 at hlast
    have hnonneg := unfinished_nonneg (s.goTo w .waiting)
    have hhigh := hround.high
    have hidle : ∀ v, ((s.goTo w .waiting).workers v).Idle := idle_of_unfinished (by omega)
    have hindex : s.index = s.goal := by omega
    refine .of_resting rfl h.goal (fun _ => h.someJob hround.caller)
      ⟨hidle, fun _ => ⟨hround.up, fun v => (hidle v).resolve_right (hpresent v)⟩, fun _ => ?_⟩
    have hnone : (s.goTo w .waiting).held = 0 := Finset.sum_eq_zero fun v _ => (hidle v).held
    have hpassed := hround.passed
    rw [← hheld, hnone, add_zero, hindex, h.goal, Int.toNat_natCast, List.take_length] at hpassed
    exact Multiset.coe_eq_coe.mp hpassed
  · rename_i hmore
    change s.busy - 1 ≠ 0 at hmore
    have hpos := hround.pos
    refine .of_running hrun h.goal (h.someJob hround.caller)
      { caller := hround.caller, up := hround.up, present := hpresent, low := hround.low
        high := hround.high, busy := hbusy, pos := ?_, passed := ?_ }
    · show 0 < s.busy - 1
      omega
    · show (s.ran : Multiset Job) + (s.goTo w .waiting).held = _
      rw [hheld]
      exact hround.passed

/-! ### Runs -/

/-- `do_jobs` is called with at least one job registered. -/
def Ready (s : ThreadPool W Job) : PoolStep W Job → Prop
  | .doJobs => s.jobs ≠ []
  | _ => True

instance (s : ThreadPool W Job) (a : PoolStep W Job) : Decidable (s.Ready a) := by
  unfold Ready
  split <;> infer_instance

/-- **Every step of every thread keeps the invariant.** -/
theorem Sound.step {s s' : ThreadPool W Job} {a : PoolStep W Job} (h : s.Sound)
    (hready : s.Ready a) (hstep : s.step a = some s') : s'.Sound := by
  cases a with
  | doJob func =>
      obtain ⟨hcaller, hs⟩ := Option.ite_none_right_eq_some.mp hstep
      obtain rfl := Option.some.inj hs
      exact h.doJob hcaller func
  | doJobs =>
      obtain ⟨hcaller, hs⟩ := Option.ite_none_right_eq_some.mp hstep
      obtain rfl := Option.some.inj hs
      exact h.doJobs hcaller hready
  | waitThreads =>
      obtain ⟨⟨hcaller, hmay⟩, hs⟩ := Option.ite_none_right_eq_some.mp hstep
      obtain rfl := Option.some.inj hs
      exact (h.waitThreads hcaller hmay).2
  | destroy =>
      obtain ⟨hcaller, hs⟩ := Option.ite_none_right_eq_some.mp hstep
      obtain rfl := Option.some.inj hs
      exact h.destroy hcaller
  | threadEntry w =>
      simp only [ThreadPool.step, threadEntry] at hstep
      split at hstep
      · rename_i hw
        exact h.takeJob hw hstep
      · rename_i job hw
        obtain rfl := Option.some.inj hstep
        exact h.runJob hw
      · rename_i hw
        obtain rfl := Option.some.inj hstep
        exact h.finishJob hw
      · cases hstep

omit [DecidableEq W] in
theorem init_sound (index : ℤ) : (init index : ThreadPool W Job).Sound :=
  .of_resting rfl rfl (fun hno => by cases hno)
    ⟨fun _ => Or.inl rfl, fun _ => ⟨rfl, fun _ => rfl⟩, fun hno => by cases hno⟩

/-- **The thread pool is a barrier.**  For any number of workers and jobs, in every run of
rounds with at least one job, however the threads interleave: when `wait_threads` returns,
the jobs run since `do_jobs` are the registered ones, each once, and every worker is back
at the section that takes a job. -/
theorem waitThreads_barrier (index : ℤ) (as : List (PoolStep W Job)) (s s' : ThreadPool W Job)
    (hready : Runs.Along step Ready (init index) as) (hrun : (init index).exec as = some s)
    (hreturn : s.step .waitThreads = some s') :
    s.ran.Perm s.jobs ∧ ∀ w, s.workers w = .waiting := by
  have hsound : s.Sound := Runs.runAll_inv (I := Sound) (fun _ _ _ h hr hs => h.step hr hs)
    (init_sound index) hready hrun
  obtain ⟨⟨hcaller, hmay⟩, -⟩ := Option.ite_none_right_eq_some.mp hreturn
  obtain ⟨⟨-, hrest⟩, -⟩ := hsound.waitThreads hcaller hmay
  exact ⟨hrest.ran hcaller, (hrest.up (by rw [hcaller]; decide)).2⟩

/-- Two workers and three jobs, in the second of two rounds. -/
theorem waitThreads_barrier_two :
    let a := PoolStep.threadEntry false
    let b := PoolStep.threadEntry true
    ∃ s : ThreadPool Bool ℕ, (init 7).exec
        [.doJob 0, .doJobs, a, a, a, .waitThreads, .doJob 1, .doJob 2, .doJobs, a, b, b, a, b, b,
          a, b, b] = some s ∧ ∃ s', s.step .waitThreads = some s' ∧
      s.ran = [1, 0, 2] ∧ s.ran.Perm s.jobs ∧ ∀ w, s.workers w = .waiting := by
  refine Runs.exists_of_view (fun s => (s.caller, s.mayReturn, s.ran))
    (x := (CallerPc.waiting, true, [1, 0, 2])) (by decide +kernel) fun s hs hview => ?_
  simp only [Prod.mk.injEq] at hview
  obtain ⟨hcaller, hmay, hran⟩ := hview
  have hreturn : s.step .waitThreads = some { s with caller := .between } :=
    if_pos ⟨hcaller, hmay⟩
  exact ⟨_, hreturn, hran, waitThreads_barrier 7 _ s _ (by decide +kernel) hs hreturn⟩

end ThreadPool

end NetworkEmulator
