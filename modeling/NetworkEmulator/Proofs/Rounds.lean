/-
A round of the thread pool is its jobs in turn.

In the middle of a round, a job is not yet taken, in the hands of one worker, or run, and
the calls made so far are those of its job that the worker has no longer before it
(`Progress`).  Where calls of different jobs can be swapped, that says all of what the
workers have done to the shared state: when `wait_threads` returns, it is what the jobs do
one after the other.

It does return, unless the jobs one after the other fail.  Every step of a worker leaves less
for the workers to do (`toDo`), no call of theirs fails, and as long as the round runs one of
them can go on: it has a job, or there is a job to take.
-/
import NetworkEmulator.Library.Interleave
import NetworkEmulator.Model.SharedPool
import NetworkEmulator.Proofs.Barrier

namespace NetworkEmulator

open Interleave

namespace ThreadPool

variable {W Job : Type} [Fintype W]

/-- The job that is taken next is not run and in nobody's hands. -/
theorem Sound.next_new {s : ThreadPool W Job} (h : s.Sound) (hnodup : s.jobs.Nodup)
    (hrun : s.isRunning = true) {job : Job} (hjob : s.jobAt s.index = some job) :
    job ∉ s.ran ∧ ∀ w, s.workers w ≠ .taken job := by
  have hround := h.phase.1 hrun
  have htake : (s.jobs.take s.index.toNat ++ [job]).Nodup := by
    rw [← jobAt_take hround.low hjob]
    exact hnodup.sublist (List.take_sublist ..)
  have hnew : job ∉ ((s.ran : Multiset Job) + s.held) := by
    rw [hround.passed, Multiset.mem_coe]
    exact fun hmem => (List.disjoint_of_nodup_append htake) hmem (by simp)
  rw [Multiset.mem_add, not_or] at hnew
  refine ⟨hnew.1, fun w hw => hnew.2 ?_⟩
  exact Multiset.mem_sum.mpr ⟨w, Finset.mem_univ w, by rw [hw]; exact Multiset.mem_singleton_self _⟩

/-- What a worker has taken is one of the jobs. -/
theorem Sound.taken_mem {s : ThreadPool W Job} (h : s.Sound) {w : W} {job : Job}
    (hw : s.workers w = .taken job) : job ∈ s.jobs := by
  have hrun : s.isRunning = true := by
    by_contra hrun
    have hidle := (h.phase.2 (by simpa using hrun)).idle w
    rw [hw] at hidle
    rcases hidle with hidle | hidle <;> cases hidle
  have hmem : job ∈ ((s.ran : Multiset Job) + s.held) := by
    refine Multiset.mem_add.mpr (Or.inr (Multiset.mem_sum.mpr ⟨w, Finset.mem_univ w, ?_⟩))
    rw [hw]
    exact Multiset.mem_singleton_self _
  rw [(h.phase.1 hrun).passed, Multiset.mem_coe] at hmem
  exact List.mem_of_mem_take hmem

/-- What was run is one of the jobs. -/
theorem Sound.ran_mem {s : ThreadPool W Job} (h : s.Sound) (hcaller : s.caller = .waiting)
    {job : Job} (hran : job ∈ s.ran) : job ∈ s.jobs := by
  by_cases hrun : s.isRunning = true
  · have hmem : job ∈ ((s.ran : Multiset Job) + s.held) :=
      Multiset.mem_add.mpr (Or.inl (Multiset.mem_coe.mpr hran))
    rw [(h.phase.1 hrun).passed, Multiset.mem_coe] at hmem
    exact List.mem_of_mem_take hmem
  · exact ((h.phase.2 (by simpa using hrun)).ran hcaller).mem_iff.mp hran

end ThreadPool

namespace SharedPool

variable {W Job Call σ : Type} [DecidableEq W]

/-! ### A step of a worker -/

/-- What a step of `thread_entry` can be: a call of the job, the end of the job, the section
after it, or the section that takes a job. -/
inductive Entry (code : JobCode Job Call σ) (s s' : SharedPool W Job Call σ) (w : W) : Prop where
  | call (job : Job) (a : Call) (rest : List Call) (hw : s.pool.workers w = .taken job)
      (hleft : s.left w = a :: rest) (hcall : code.call job s.shared a = some s'.shared)
      (hpool : s'.pool = s.pool) (hleft' : s'.left = Function.update s.left w rest)
  | done (job : Job) (hw : s.pool.workers w = .taken job) (hleft : s.left w = [])
      (hpool : s'.pool = ({ s.pool with ran := s.pool.ran ++ [job] } :
        ThreadPool W Job).goTo w .finishing)
      (hshared : s'.shared = s.shared) (hleft' : s'.left = s.left)
  | finish (hw : s.pool.workers w = .finishing) (hpool : s'.pool = s.pool.finishJob w)
      (hshared : s'.shared = s.shared) (hleft' : s'.left = s.left)
  | take (hw : s.pool.workers w = .waiting) (hpool : s.pool.takeJob w = some s'.pool)
      (hshared : s'.shared = s.shared)
      (hleft' : s'.left = Function.update s.left w (toMake code (s'.pool.workers w)))

theorem threadEntry_cases {code : JobCode Job Call σ} {s s' : SharedPool W Job Call σ} {w : W}
    (hstep : s.threadEntry code w = some s') : Entry code s s' w := by
  unfold threadEntry at hstep
  split at hstep
  · rename_i job a rest hw hleft
    obtain ⟨shared, hcall, rfl⟩ := Option.map_eq_some_iff.mp hstep
    exact .call job a rest hw hleft hcall rfl rfl
  · rename_i hw
    obtain ⟨pool, hpool, rfl⟩ := Option.map_eq_some_iff.mp hstep
    refine .take hw ?_ rfl rfl
    simpa only [ThreadPool.step, ThreadPool.threadEntry, hw] using hpool
  · rename_i hwait hcall
    obtain ⟨pool, hpool, rfl⟩ := Option.map_eq_some_iff.mp hstep
    simp only [ThreadPool.step, ThreadPool.threadEntry] at hpool
    split at hpool
    · rename_i hw
      exact (hwait hw).elim
    · rename_i job hw
      obtain rfl := Option.some.inj hpool
      refine .done job hw ?_ rfl rfl rfl
      cases hleft : s.left w with
      | nil => rfl
      | cons a rest => exact (hcall _ _ _ hw hleft).elim
    · rename_i hw
      obtain rfl := Option.some.inj hpool
      exact .finish hw rfl rfl rfl
    · cases hpool

/-- What a worker has yet to do with its job: its calls, the end of the job and the section after
it. -/
def leftToDo (pc : WorkerPc Job) (left : ℕ) : ℕ :=
  match pc with
  | .taken _ => left + 2
  | .finishing => 1
  | _ => 0

@[simp] theorem leftToDo_taken (job : Job) (left : ℕ) :
    leftToDo (.taken job) left = left + 2 := rfl

@[simp] theorem leftToDo_finishing (left : ℕ) : leftToDo (.finishing : WorkerPc Job) left = 1 := rfl

@[simp] theorem leftToDo_waiting (left : ℕ) : leftToDo (.waiting : WorkerPc Job) left = 0 := rfl

/-! ### The middle of a round -/

/-- In the middle of a round that started with the shared state `s₀`, the calls made so far
are those of `t`. -/
structure Progress (code : JobCode Job Call σ) (s₀ : σ) (s : SharedPool W Job Call σ)
    (t : List (Job × Call)) [Fintype W] [DecidableEq Job] : Prop where
  sound : s.pool.Sound
  caller : s.pool.caller = .waiting
  nodup : s.pool.jobs.Nodup
  run : Runs.runAll (act code.call) s₀ t = some s.shared
  made : ∀ w job, s.pool.workers w = .taken job → proj job t ++ s.left w = code.calls job
  done : ∀ job ∈ s.pool.ran, proj job t = code.calls job
  untaken : ∀ job, job ∉ s.pool.ran → (∀ w, s.pool.workers w ≠ .taken job) → proj job t = []
  fresh : ∀ w job, s.pool.workers w = .taken job → job ∉ s.pool.ran
  apart : ∀ v w job, s.pool.workers v = .taken job → s.pool.workers w = .taken job → v = w

variable [Fintype W] [DecidableEq Job] {code : JobCode Job Call σ} {s₀ : σ}
  {s s' s₁ s₂ : SharedPool W Job Call σ} {t : List (Job × Call)}

/-- A worker with a job makes its next call. -/
private theorem Progress.call (h : Progress code s₀ s t) {w : W} {job : Job} {a : Call}
    {rest : List Call} (hw : s.pool.workers w = .taken job) (hleft : s.left w = a :: rest)
    (hcall : code.call job s.shared a = some s'.shared) (hpool : s'.pool = s.pool)
    (hleft' : s'.left = Function.update s.left w rest) : Progress code s₀ s' (t ++ [(job, a)]) := by
  have hother : ∀ job', job' ≠ job → proj job' (t ++ [(job, a)]) = proj job' t := by
    intro job' hne
    rw [proj_append, proj_cons_of_ne (Ne.symm hne), proj_nil, List.append_nil]
  have hown : proj job (t ++ [(job, a)]) = proj job t ++ [a] := by
    rw [proj_append, proj_cons_self, proj_nil]
  refine
    { sound := by rw [hpool]; exact h.sound
      caller := by rw [hpool]; exact h.caller
      nodup := by rw [hpool]; exact h.nodup
      run := Runs.runAll_concat.mpr ⟨s.shared, h.run, hcall⟩
      made := fun v job' hv => ?_, done := fun job' hran => ?_
      untaken := fun job' hran hnone => ?_
      fresh := by rw [hpool]; exact h.fresh
      apart := by rw [hpool]; exact h.apart }
  · rw [hpool] at hv
    rw [hleft']
    by_cases hvw : v = w
    · obtain rfl : job = job' := by
        rw [hvw, hw] at hv
        exact WorkerPc.taken.inj hv
      rw [hvw, Function.update_self, hown, List.append_assoc, ← h.made w job hw, hleft]
      rfl
    · have hne : job' ≠ job := fun hjob => hvw (h.apart v w job (hjob ▸ hv) hw)
      rw [Function.update_of_ne hvw, hother job' hne]
      exact h.made v job' hv
  · rw [hpool] at hran
    have hne : job' ≠ job := fun hjob => h.fresh w job hw (hjob ▸ hran)
    rw [hother job' hne]
    exact h.done job' hran
  · rw [hpool] at hran hnone
    have hne : job' ≠ job := fun hjob => hnone w (hjob ▸ hw)
    rw [hother job' hne]
    exact h.untaken job' hran hnone

/-- A worker that goes on to a section without a job, when nothing else changes but what was
run. -/
private theorem Progress.goTo (h : Progress code s₀ s t) {w : W} {c : WorkerPc Job}
    (hc : ∀ job, c ≠ .taken job) (hsound : s'.pool.Sound)
    (hcaller : s'.pool.caller = .waiting) (hjobs : s'.pool.jobs = s.pool.jobs)
    (hworkers : s'.pool.workers = Function.update s.pool.workers w c)
    (hran : ∀ job, job ∈ s'.pool.ran ↔ job ∈ s.pool.ran ∨ s.pool.workers w = .taken job)
    (hmade : ∀ job, s.pool.workers w = .taken job → proj job t = code.calls job)
    (hshared : s'.shared = s.shared) (hleft : s'.left = s.left) : Progress code s₀ s' t := by
  have hback : ∀ v job, s'.pool.workers v = .taken job → v ≠ w ∧ s.pool.workers v = .taken job := by
    intro v job hv
    rw [hworkers] at hv
    by_cases hvw : v = w
    · rw [hvw, Function.update_self] at hv
      exact absurd hv (hc job)
    · rw [Function.update_of_ne hvw] at hv
      exact ⟨hvw, hv⟩
  refine
    { sound := hsound, caller := hcaller
      nodup := by rw [hjobs]; exact h.nodup
      run := by rw [hshared]; exact h.run
      made := fun v job hv => by rw [hleft]; exact h.made v job (hback v job hv).2
      done := fun job hjob => ?_, untaken := fun job hjob hnone => ?_
      fresh := fun v job hv hjob => ?_
      apart := fun u v job hu hv => h.apart u v job (hback u job hu).2 (hback v job hv).2 }
  · rcases (hran job).mp hjob with hold | hown
    · exact h.done job hold
    · exact hmade job hown
  · rw [hran, not_or] at hjob
    refine h.untaken job hjob.1 fun v hv => ?_
    by_cases hvw : v = w
    · exact hjob.2 (hvw ▸ hv)
    · refine hnone v ?_
      rw [hworkers, Function.update_of_ne hvw]
      exact hv
  · obtain ⟨hvw, hv⟩ := hback v job hv
    rcases (hran job).mp hjob with hold | hown
    · exact h.fresh v job hv hold
    · exact hvw (h.apart v w job hv hown)

/-- In the middle of a round a worker is only let go with a job. -/
private theorem Progress.taken (h : Progress code s₀ s t) {w : W}
    {pool : ThreadPool W Job} (hpool : s.pool.takeJob w = some pool) :
    s.pool.isRunning = true ∧ ∃ job, s.pool.jobAt s.pool.index = some job ∧
      { s.pool with index := s.pool.index + 1 }.goTo w (.taken job) = pool := by
  unfold ThreadPool.takeJob at hpool
  by_cases hnone : s.pool.noJob = true
  · -- only a pool that is shut down lets a worker go, and this one is waited for
    rw [if_pos hnone] at hpool
    by_cases hdown : s.pool.shutdown = true
    · refine absurd hdown ?_
      by_cases hrun : s.pool.isRunning = true
      · rw [(h.sound.phase.1 hrun).up]; decide
      · have hup := ((h.sound.phase.2 (by simpa using hrun)).up (by rw [h.caller]; decide)).1
        rw [hup]; decide
    · rw [if_neg hdown] at hpool
      cases hpool
  · rw [if_neg hnone] at hpool
    have hfalse : s.pool.noJob = false := by simpa using hnone
    obtain ⟨job, hjob, hgo⟩ := Option.map_eq_some_iff.mp hpool
    refine ⟨?_, job, hjob, hgo⟩
    simp only [ThreadPool.noJob, Bool.or_eq_false_iff] at hfalse
    simpa using hfalse.1.1

/-- A worker takes the next job. -/
private theorem Progress.take (h : Progress code s₀ s t) {w : W} (hw : s.pool.workers w = .waiting)
    (hsound : s'.pool.Sound) (hpool : s.pool.takeJob w = some s'.pool)
    (hshared : s'.shared = s.shared)
    (hleft : s'.left = Function.update s.left w (toMake code (s'.pool.workers w))) :
    Progress code s₀ s' t := by
  obtain ⟨hrun, job, hjob, hpool⟩ := h.taken hpool
  obtain ⟨hran, hnobody⟩ := h.sound.next_new h.nodup hrun hjob
  have hworkers : s'.pool.workers = Function.update s.pool.workers w (.taken job) := by
    rw [← hpool]; rfl
  have hmade : ∀ v job', s'.pool.workers v = .taken job' →
      (v = w ∧ job' = job) ∨ (v ≠ w ∧ job' ≠ job ∧ s.pool.workers v = .taken job') := by
    intro v job' hv
    rw [hworkers] at hv
    by_cases hvw : v = w
    · rw [hvw, Function.update_self] at hv
      exact Or.inl ⟨hvw, (WorkerPc.taken.inj hv).symm⟩
    · rw [Function.update_of_ne hvw] at hv
      exact Or.inr ⟨hvw, fun hjob => hnobody v (hjob ▸ hv), hv⟩
  have hran' : s'.pool.ran = s.pool.ran := by rw [← hpool]; rfl
  refine
    { sound := hsound
      caller := by rw [← hpool]; exact h.caller
      nodup := by rw [← hpool]; exact h.nodup
      run := by rw [hshared]; exact h.run
      made := fun v job' hv => ?_
      done := by rw [hran']; exact h.done
      untaken := fun job' hjob' hnone => ?_
      fresh := fun v job' hv => ?_
      apart := fun u v job' hu hv => ?_ }
  · rw [hleft]
    rcases hmade v job' hv with ⟨rfl, rfl⟩ | ⟨hvw, -, hold⟩
    · rw [Function.update_self, hv, h.untaken job' hran hnobody]
      rfl
    · rw [Function.update_of_ne hvw]
      exact h.made v job' hold
  · rw [hran'] at hjob'
    refine h.untaken job' hjob' fun v hv => hnone v ?_
    have hvw : v ≠ w := by
      rintro rfl
      rw [hw] at hv
      cases hv
    rw [hworkers, Function.update_of_ne hvw]
    exact hv
  · rw [hran']
    rcases hmade v job' hv with ⟨-, rfl⟩ | ⟨-, -, hold⟩
    · exact hran
    · exact h.fresh v job' hold
  · rcases hmade u job' hu with ⟨rfl, rfl⟩ | ⟨hne, hjob', hold⟩
    · rcases hmade v job' hv with ⟨rfl, -⟩ | ⟨-, hne, -⟩
      · rfl
      · exact absurd rfl hne
    · rcases hmade v job' hv with ⟨-, rfl⟩ | ⟨-, -, hold'⟩
      · exact absurd rfl hjob'
      · exact h.apart u v job' hold hold'

/-- **Every step of a worker** keeps to the calls of the jobs. -/
theorem Progress.step (h : Progress code s₀ s t) {w : W} (hstep : s.threadEntry code w = some s') :
    ∃ t', Progress code s₀ s' t' := by
  have hpoolStep : ∀ pool, s.pool.threadEntry w = some pool → pool.Sound := fun pool hpool =>
    h.sound.step (a := .threadEntry w) trivial hpool
  cases threadEntry_cases hstep with
  | call job a rest hw hleft hcall hpool hleft' =>
      exact ⟨t ++ [(job, a)], h.call hw hleft hcall hpool hleft'⟩
  | done job hw hleft hpool hshared hleft' =>
      have hsound : s'.pool.Sound := hpoolStep s'.pool (by rw [hpool, ThreadPool.threadEntry, hw])
      refine ⟨t, h.goTo (w := w) (c := .finishing) (fun _ hno => by cases hno) hsound
        (by rw [hpool]; exact h.caller) (by rw [hpool]; rfl) (by rw [hpool]; rfl) (fun job' => ?_)
        (fun job' hjob' => ?_) hshared hleft'⟩
      · rw [hpool, hw]
        show job' ∈ s.pool.ran ++ [job] ↔ _
        rw [List.mem_append, List.mem_singleton, WorkerPc.taken.injEq, eq_comm (a := job')]
      · have hmade := h.made w job' hjob'
        rwa [hleft, List.append_nil] at hmade
  | finish hw hpool hshared hleft' =>
      have hsound : s'.pool.Sound := hpoolStep s'.pool (by rw [hpool, ThreadPool.threadEntry, hw])
      have hparts : s'.pool.caller = s.pool.caller ∧ s'.pool.jobs = s.pool.jobs ∧
          s'.pool.ran = s.pool.ran ∧
          s'.pool.workers = Function.update s.pool.workers w .waiting := by
        rw [hpool, ThreadPool.finishJob]
        split <;> exact ⟨rfl, rfl, rfl, rfl⟩
      obtain ⟨hcaller, hjobs, hran, hworkers⟩ := hparts
      refine ⟨t, h.goTo (w := w) (c := .waiting) (fun _ hno => by cases hno) hsound
        (by rw [hcaller]; exact h.caller) hjobs hworkers (fun job => ?_) (fun job hjob => ?_)
        hshared hleft'⟩
      · rw [hran, hw]
        simp
      · rw [hw] at hjob
        cases hjob
  | take hw hpool hshared hleft' =>
      have hstep' := hpoolStep s'.pool (by rw [ThreadPool.threadEntry, hw]; exact hpool)
      exact ⟨t, h.take hw hstep' hpool hshared hleft'⟩

/-! ### A round -/

/-- Between two rounds, with the registered jobs. -/
structure AtRest (s : SharedPool W Job Call σ) (jobs : List Job) : Prop where
  jobs_eq : s.pool.jobs = jobs
  caller : s.pool.caller = .between
  waiting : ∀ w, s.pool.workers w = .waiting
  up : s.pool.shutdown = false
  sound : jobs ≠ [] → s.pool.Sound

omit [DecidableEq Job] in
/-- A new pool, after the jobs are registered. -/
theorem atRest_new (index : ℤ) (jobs : List Job) (shared : σ) :
    (⟨jobs.foldl ThreadPool.doJob (.init index), shared, fun _ => []⟩ :
      SharedPool W Job Call σ).AtRest jobs := by
  have hfold : ∀ (jobs : List Job) (p : ThreadPool W Job), p.Sound → p.caller = .between →
      (∀ w, p.workers w = .waiting) → p.shutdown = false →
      (jobs.foldl ThreadPool.doJob p).jobs = p.jobs ++ jobs ∧
        (jobs.foldl ThreadPool.doJob p).caller = .between ∧
        (∀ w, (jobs.foldl ThreadPool.doJob p).workers w = .waiting) ∧
        (jobs.foldl ThreadPool.doJob p).shutdown = false ∧
        (jobs.foldl ThreadPool.doJob p).Sound := by
    intro jobs
    induction jobs with
    | nil => intro p hp hcaller hwait hup; exact ⟨(List.append_nil _).symm, hcaller, hwait, hup, hp⟩
    | cons job jobs ih =>
        intro p hp hcaller hwait hup
        have hstep : p.step (.doJob job) = some (p.doJob job) := if_pos hcaller
        have hsound : (p.doJob job).Sound := hp.step (a := .doJob job) trivial hstep
        obtain ⟨hjobs, hrest⟩ := ih (p.doJob job) hsound hcaller hwait hup
        refine ⟨?_, hrest⟩
        rw [List.foldl_cons, hjobs, ThreadPool.doJob, List.append_assoc]
        rfl
  obtain ⟨hjobs, hcaller, hwait, hup, hsound⟩ :=
    hfold jobs (.init index) (ThreadPool.init_sound index) rfl (fun _ => rfl) rfl
  exact ⟨by rw [hjobs]; rfl, hcaller, hwait, hup, fun _ => hsound⟩

omit [Fintype W] [DecidableEq Job] in
/-- Without jobs the workers have nothing to do. -/
private theorem noStep (hjobs : s.pool.jobs = []) (hwait : ∀ w, s.pool.workers w = .waiting)
    (hup : s.pool.shutdown = false) (w : W) : s.threadEntry code w = none := by
  have hnone : s.pool.noJob = true := by simp [ThreadPool.noJob, hjobs]
  have htake : s.pool.takeJob w = none := by
    rw [ThreadPool.takeJob, if_pos hnone, if_neg (by rw [hup]; decide)]
  rw [Option.eq_none_iff_forall_ne_some]
  intro s' hstep
  cases threadEntry_cases hstep with
  | call job a rest hw => rw [hwait w] at hw; cases hw
  | done job hw => rw [hwait w] at hw; cases hw
  | finish hw => rw [hwait w] at hw; cases hw
  | take hw hpool => rw [htake] at hpool; cases hpool

omit [Fintype W] [DecidableEq Job] in
/-- `do_jobs` moves nobody. -/
private theorem doJobs_parts (hstart : s.doJobs = some s') :
    s'.pool.workers = s.pool.workers ∧ s'.pool.jobs = s.pool.jobs ∧
      s'.pool.shutdown = s.pool.shutdown ∧ s'.pool.caller = .waiting ∧ s'.pool.ran = [] ∧
      s'.shared = s.shared := by
  obtain ⟨pool, hpool, rfl⟩ := Option.map_eq_some_iff.mp hstart
  obtain ⟨-, hpool⟩ := Option.ite_none_right_eq_some.mp hpool
  rw [← Option.some.inj hpool]
  unfold ThreadPool.doJobs
  split <;> exact ⟨rfl, rfl, rfl, rfl, rfl, rfl⟩

omit [DecidableEq Job] in
/-- Without jobs, a round changes nothing. -/
private theorem AtRest.still (h : s.AtRest []) (hstart : s.doJobs = some s₁) {schedule : List W}
    (hrun : Runs.runAll (threadEntry code) s₁ schedule = some s₂) : s₂ = s₁ := by
  obtain ⟨hworkers, hjobs, hup, -⟩ := doJobs_parts hstart
  cases schedule with
  | nil => exact (Option.some.inj hrun).symm
  | cons w schedule =>
      obtain ⟨s₃, hstep, -⟩ := Runs.runAll_cons.mp hrun
      rw [noStep (hjobs.trans h.jobs_eq) (fun w => by rw [hworkers, h.waiting w])
        (hup.trans h.up)] at hstep
      cases hstep

/-- What `do_jobs` starts. -/
private theorem AtRest.start (code : JobCode Job Call σ) {jobs : List Job} (h : s.AtRest jobs)
    (hjobs : jobs ≠ []) (hnodup : jobs.Nodup) (hstart : s.doJobs = some s') :
    Progress code s.shared s' [] ∧ s'.pool.jobs = jobs := by
  obtain ⟨hworkers, hsame, -, hcaller, hran, hshared⟩ := doJobs_parts hstart
  have hready : ThreadPool.Ready s.pool (.doJobs : PoolStep W Job) := by
    rw [← h.jobs_eq] at hjobs
    exact hjobs
  have hsound : s'.pool.Sound := by
    obtain ⟨pool, hpool, rfl⟩ := Option.map_eq_some_iff.mp hstart
    exact (h.sound hjobs).step hready hpool
  have hbusy : ∀ w job, s'.pool.workers w ≠ .taken job := fun w job hw => by
    rw [hworkers, h.waiting w] at hw
    cases hw
  refine ⟨⟨hsound, hcaller, ?_, congrArg some hshared.symm, fun w job hw => absurd hw (hbusy w job),
    fun job hjob => ?_, fun _ _ _ => rfl, fun w job hw => absurd hw (hbusy w job),
    fun v w job hv => absurd hv (hbusy v job)⟩, hsame.trans h.jobs_eq⟩
  · rw [hsame, h.jobs_eq]
    exact hnodup
  · rw [hran] at hjob
    cases hjob

/-- The workers of a round, any number of steps on. -/
private theorem Progress.run_all (h : Progress code s₀ s t) {schedule : List W}
    (hrun : Runs.runAll (threadEntry code) s schedule = some s') :
    (∃ t', Progress code s₀ s' t') ∧ s'.pool.jobs = s.pool.jobs := by
  refine Runs.runAll_inv' (I := fun u => (∃ t', Progress code s₀ u t') ∧
    u.pool.jobs = s.pool.jobs) (fun u w u' hu hstep => ?_) ⟨⟨t, h⟩, rfl⟩ hrun
  obtain ⟨⟨t', hu⟩, hjobs⟩ := hu
  refine ⟨hu.step hstep, ?_⟩
  rw [← hjobs]
  cases threadEntry_cases hstep with
  | call job a rest hw hleft hcall hpool => rw [hpool]
  | done job hw hleft hpool => rw [hpool]; rfl
  | finish hw hpool =>
      rw [hpool, ThreadPool.finishJob]
      split <;> rfl
  | take hw hpool =>
      unfold ThreadPool.takeJob at hpool
      split at hpool
      · split at hpool
        · rw [← Option.some.inj hpool]; rfl
        · cases hpool
      · obtain ⟨job, -, hgo⟩ := Option.map_eq_some_iff.mp hpool
        rw [← hgo]
        rfl

omit [DecidableEq W] in
/-- What the workers have done in the middle of a round is the beginning of the jobs. -/
private theorem Progress.begun (h : Progress code s₀ s t) (job : Job) :
    ∃ rest, proj job t ++ rest = if job ∈ s.pool.jobs then code.calls job else [] := by
  by_cases hran : job ∈ s.pool.ran
  · rw [if_pos (h.sound.ran_mem h.caller hran), h.done job hran]
    exact ⟨[], List.append_nil _⟩
  · by_cases hheld : ∃ w, s.pool.workers w = .taken job
    · obtain ⟨w, hw⟩ := hheld
      rw [if_pos (h.sound.taken_mem hw)]
      exact ⟨s.left w, h.made w job hw⟩
    · rw [h.untaken job hran fun w hw => hheld ⟨w, hw⟩]
      exact ⟨_, List.nil_append _⟩

/-- **A round of the pool is its jobs in turn**, for every schedule of the workers. -/
theorem AtRest.round {jobs : List Job} (hcode : Independent code.call) (hnodup : jobs.Nodup)
    (h : s.AtRest jobs) {schedule : List W} (hround : s.round code schedule = some s') :
    Runs.runAll (act code.call) s.shared (inTurn code.calls jobs) = some s'.shared ∧
      s'.AtRest jobs := by
  obtain ⟨s₁, hstart, hround⟩ := Option.bind_eq_some_iff.mp hround
  obtain ⟨s₂, hrun, hreturn⟩ := Option.bind_eq_some_iff.mp hround
  obtain ⟨pool, hwait, rfl⟩ := Option.map_eq_some_iff.mp hreturn
  obtain ⟨⟨hcaller, hmay⟩, hpool⟩ := Option.ite_none_right_eq_some.mp hwait
  obtain rfl := Option.some.inj hpool
  by_cases hjobs : jobs = []
  · subst hjobs
    obtain rfl := h.still hstart hrun
    obtain ⟨hworkers, hjobs, hup, -, -, hshared⟩ := doJobs_parts hstart
    exact ⟨congrArg some hshared.symm, hjobs.trans h.jobs_eq, rfl,
      fun w => (congrFun hworkers w).trans (h.waiting w), hup.trans h.up, fun hno => absurd rfl hno⟩
  · obtain ⟨hbegin, hjobs₁⟩ := h.start code hjobs hnodup hstart
    obtain ⟨⟨t, hp⟩, hjobs₂⟩ := hbegin.run_all hrun
    have hjobs₃ : s₂.pool.jobs = jobs := hjobs₂.trans hjobs₁
    obtain ⟨⟨-, hrest⟩, hsound⟩ := hp.sound.waitThreads hcaller hmay
    obtain ⟨hup, hwaiting⟩ := hrest.up (by rw [hcaller]; decide)
    have hall : ∀ job, proj job t = if job ∈ jobs then code.calls job else [] := by
      intro job
      rw [← hjobs₃]
      by_cases hjob : job ∈ s₂.pool.jobs
      · rw [if_pos hjob]
        exact hp.done job ((hrest.ran hcaller).mem_iff.mpr hjob)
      · rw [if_neg hjob]
        have hran : job ∉ s₂.pool.ran := fun hran => hjob ((hrest.ran hcaller).mem_iff.mp hran)
        refine hp.untaken job hran fun w hw => ?_
        rw [hwaiting w] at hw
        cases hw
    refine ⟨?_, hjobs₃, rfl, hwaiting, hup, fun _ => hsound⟩
    rw [← runAll_inTurn hcode hnodup hall]
    exact hp.run

/-! ### Rounds end -/

/-- What the workers have yet to do in a round, with the jobs that none of them has taken. -/
def toDo (code : JobCode Job Call σ) (s : SharedPool W Job Call σ) : ℕ :=
  ∑ w, leftToDo (s.pool.workers w) (s.left w).length +
    ((s.pool.jobs.drop s.pool.index.toNat).map fun job => (code.calls job).length + 3).sum

omit [DecidableEq Job] in
/-- The workers have less to do when one of them has. -/
private theorem toDo_update {w : W} {pc : WorkerPc Job} {left : List Call}
    (hworkers : s'.pool.workers = Function.update s.pool.workers w pc)
    (hleft : s'.left = Function.update s.left w left) :
    (∑ v, leftToDo (s'.pool.workers v) (s'.left v).length) +
        leftToDo (s.pool.workers w) (s.left w).length =
      (∑ v, leftToDo (s.pool.workers v) (s.left v).length) +
        leftToDo pc left.length := by
  have hpair : (fun v => (s'.pool.workers v, s'.left v)) =
      Function.update (fun v => (s.pool.workers v, s.left v)) w (pc, left) := by
    funext v
    rw [hworkers, hleft]
    by_cases hv : v = w
    · rw [hv]
      simp only [Function.update_self]
    · simp only [Function.update_of_ne hv]
  have hsum := sum_update (fun v => (s.pool.workers v, s.left v))
    (fun x => leftToDo x.1 x.2.length) w (pc, left)
  rw [← hpair] at hsum
  exact hsum

/-- **Every step of a worker leaves less to do.** -/
private theorem Progress.toDo_lt (h : Progress code s₀ s t) {w : W}
    (hstep : s.threadEntry code w = some s') : toDo code s' < toDo code s := by
  have hsame : ∀ f : W → List Call, f = Function.update f w (f w) := fun f =>
    (Function.update_eq_self w f).symm
  unfold toDo
  cases threadEntry_cases hstep with
  | call job a rest hw hleft hcall hpool hleft' =>
      have hworkers : s'.pool.workers = Function.update s.pool.workers w (.taken job) := by
        rw [hpool, ← hw, Function.update_eq_self]
      have hsum := toDo_update hworkers hleft'
      rw [hw, hleft] at hsum
      simp only [leftToDo_taken, List.length_cons] at hsum
      rw [hpool] at hsum ⊢
      omega
  | done job hw hleft hpool hshared hleft' =>
      have hworkers : s'.pool.workers = Function.update s.pool.workers w .finishing := by
        rw [hpool]
        rfl
      have hsum := toDo_update hworkers (hleft'.trans (hsame s.left))
      have hparts : s'.pool.jobs = s.pool.jobs ∧ s'.pool.index = s.pool.index := by
        rw [hpool]
        exact ⟨rfl, rfl⟩
      rw [hw, hleft] at hsum
      simp only [leftToDo_taken, leftToDo_finishing, List.length_nil] at hsum
      rw [hparts.1, hparts.2]
      omega
  | finish hw hpool hshared hleft' =>
      have hparts : s'.pool.jobs = s.pool.jobs ∧ s'.pool.index = s.pool.index ∧
          s'.pool.workers = Function.update s.pool.workers w .waiting := by
        rw [hpool, ThreadPool.finishJob]
        split <;> exact ⟨rfl, rfl, rfl⟩
      obtain ⟨hjobs, hindex, hworkers⟩ := hparts
      have hsum := toDo_update hworkers (hleft'.trans (hsame s.left))
      rw [hw] at hsum
      simp only [leftToDo_finishing, leftToDo_waiting] at hsum
      rw [hjobs, hindex]
      omega
  | take hw hpool hshared hleft' =>
      obtain ⟨hrun, job, hjob, hgo⟩ := h.taken hpool
      have hlow := (h.sound.phase.1 hrun).low
      have hworkers : s'.pool.workers = Function.update s.pool.workers w (.taken job) := by
        rw [← hgo]
        rfl
      rw [hworkers, Function.update_self] at hleft'
      have hsum := toDo_update hworkers hleft'
      rw [hw] at hsum
      simp only [leftToDo_taken, leftToDo_waiting, toMake] at hsum
      -- The job leaves those that nobody has taken.
      have hdrop : s.pool.jobs.drop s.pool.index.toNat =
          job :: s.pool.jobs.drop (s.pool.index + 1).toNat := by
        rw [ThreadPool.jobAt, if_neg (not_lt.mpr hlow)] at hjob
        have hnext : (s.pool.index + 1).toNat = s.pool.index.toNat + 1 := by omega
        rw [hnext]
        exact List.drop_eq_getElem?_toList_append.trans (by rw [hjob]; rfl)
      have hparts : s'.pool.jobs = s.pool.jobs ∧ s'.pool.index = s.pool.index + 1 := by
        rw [← hgo]
        exact ⟨rfl, rfl⟩
      rw [hparts.1, hparts.2, hdrop, List.map_cons, List.sum_cons]
      omega

omit [DecidableEq W] in
/-- No call fails unless the jobs in turn do. -/
private theorem Progress.call_isSome (hcode : Independent code.call) (h : Progress code s₀ s t)
    (hseq : (Runs.runAll (act code.call) s₀ (inTurn code.calls s.pool.jobs)).isSome = true)
    {w : W} {job : Job} {a : Call} {rest : List Call} (hw : s.pool.workers w = .taken job)
    (hleft : s.left w = a :: rest) : (code.call job s.shared a).isSome = true := by
  have hbegun : ∀ job', ∃ more, proj job' (t ++ [(job, a)]) ++ more
      = if job' ∈ s.pool.jobs then code.calls job' else [] := by
    intro job'
    by_cases hjob : job' = job
    · refine ⟨rest, ?_⟩
      rw [hjob, if_pos (h.sound.taken_mem hw), proj_append, proj_cons_self, proj_nil,
        List.append_assoc, ← h.made w job hw, hleft]
      rfl
    · obtain ⟨more, hmore⟩ := h.begun job'
      refine ⟨more, ?_⟩
      rw [proj_append, proj_cons_of_ne (Ne.symm hjob), proj_nil, List.append_nil, hmore]
  have hsome := isSome_of_inTurn hcode h.nodup hbegun hseq
  obtain ⟨shared, hshared⟩ := Option.isSome_iff_exists.mp hsome
  obtain ⟨s₃, ht, hcall⟩ := Runs.runAll_concat.mp hshared
  obtain rfl := Option.some.inj (h.run.symm.trans ht)
  exact Option.isSome_iff_exists.mpr ⟨shared, hcall⟩

/-- **As long as the round runs, a worker can go on.** -/
private theorem Progress.exists_step [Nonempty W] (hcode : Independent code.call)
    (h : Progress code s₀ s t)
    (hseq : (Runs.runAll (act code.call) s₀ (inTurn code.calls s.pool.jobs)).isSome = true)
    (hrun : s.pool.isRunning = true) : ∃ w s', s.threadEntry code w = some s' := by
  have hround := h.sound.phase.1 hrun
  by_cases hidle : ∀ w, (s.pool.workers w).Idle
  · -- All workers wait, so not all jobs are taken.
    obtain ⟨w⟩ := ‹Nonempty W›
    have hw : s.pool.workers w = .waiting := (hidle w).resolve_right (hround.present w)
    have hunfinished : s.pool.unfinished = 0 :=
      Finset.sum_eq_zero fun v _ => WorkerPc.idle_iff.mp (hidle v)
    have hlt : s.pool.index < s.pool.goal := by
      have hbusy := hround.busy
      have hpos := hround.pos
      omega
    have hjobs : s.pool.jobs.isEmpty = false := by
      simpa using h.sound.someJob h.caller
    have hsome : s.pool.noJob = false := by
      simp [ThreadPool.noJob, hrun, hlt, hjobs]
    obtain ⟨job, hjob⟩ : ∃ job, s.pool.jobAt s.pool.index = some job := by
      have hindex : s.pool.index.toNat < s.pool.jobs.length := by
        have hgoal := h.sound.goal
        have hlow := hround.low
        omega
      rw [ThreadPool.jobAt, if_neg (not_lt.mpr hround.low)]
      exact ⟨_, List.getElem?_eq_getElem hindex⟩
    have htake : s.pool.takeJob w =
        some ({ s.pool with index := s.pool.index + 1 }.goTo w (.taken job)) := by
      rw [ThreadPool.takeJob, hsome, if_neg Bool.false_ne_true, hjob]
      rfl
    refine ⟨w, Option.isSome_iff_exists.mp ?_⟩
    simp only [threadEntry, hw, ThreadPool.step, ThreadPool.threadEntry, htake]
    rfl
  · obtain ⟨w, hw⟩ := not_forall.mp hidle
    refine ⟨w, Option.isSome_iff_exists.mp ?_⟩
    cases hpc : s.pool.workers w with
    | waiting => exact absurd (Or.inl hpc) hw
    | returned => exact absurd (Or.inr hpc) hw
    | finishing =>
        simp only [threadEntry, hpc, ThreadPool.step, ThreadPool.threadEntry]
        rfl
    | taken job =>
        cases hleft : s.left w with
        | nil =>
            simp only [threadEntry, hpc, hleft, ThreadPool.step, ThreadPool.threadEntry]
            rfl
        | cons a rest =>
            simp only [threadEntry, hpc, hleft, Option.isSome_map]
            exact h.call_isSome hcode hseq hpc hleft

/-- From the middle of a round the workers can go on to its end. -/
private theorem Progress.finish [Nonempty W] (hcode : Independent code.call)
    (h : Progress code s₀ s t)
    (hseq : (Runs.runAll (act code.call) s₀ (inTurn code.calls s.pool.jobs)).isSome = true) :
    ∃ more s', Runs.runAll (threadEntry code) s more = some s' ∧ s'.waitThreads.isSome = true := by
  -- The induction is on what the workers have yet to do.
  induction hn : toDo code s using Nat.strong_induction_on generalizing s t with
  | _ n ih =>
      by_cases hrun : s.pool.isRunning = true
      · obtain ⟨w, s₁, hstep⟩ := h.exists_step hcode hseq hrun
        have hone : Runs.runAll (threadEntry code) s [w] = some s₁ :=
          Runs.runAll_cons.mpr ⟨s₁, hstep, rfl⟩
        obtain ⟨⟨t₁, h₁⟩, hjobs⟩ := h.run_all hone
        obtain ⟨more, s₂, hmore, hreturn⟩ :=
          ih (toDo code s₁) (hn ▸ h.toDo_lt hstep) h₁ (hjobs ▸ hseq) rfl
        exact ⟨w :: more, s₂, Runs.runAll_cons.mpr ⟨s₁, hstep, hmore⟩, hreturn⟩
      · refine ⟨[], s, rfl, ?_⟩
        have hmay : s.pool.mayReturn = true := by simp [ThreadPool.mayReturn, hrun]
        rw [waitThreads, ThreadPool.step, if_pos ⟨h.caller, hmay⟩]
        rfl

/-- `do_jobs`, and what the workers do after it: a round up to some point in its middle. -/
def begun (code : JobCode Job Call σ) (s : SharedPool W Job Call σ) (schedule : List W) :
    Option (SharedPool W Job Call σ) :=
  s.doJobs.bind fun s => Runs.runAll (threadEntry code) s schedule

/-- **No schedule fails unless the jobs in turn do.**  Whatever the workers have done in a
round, the next call of any of them returns. -/
theorem AtRest.call_isSome (code : JobCode Job Call σ) {jobs : List Job}
    (hcode : Independent code.call) (hnodup : jobs.Nodup) (h : s.AtRest jobs)
    (hseq : (Runs.runAll (act code.call) s.shared (inTurn code.calls jobs)).isSome = true)
    {schedule : List W} (hbegun : s.begun code schedule = some s₂) {w : W} {job : Job} {a : Call}
    {rest : List Call} (hw : s₂.pool.workers w = .taken job) (hleft : s₂.left w = a :: rest) :
    (code.call job s₂.shared a).isSome = true := by
  obtain ⟨s₁, hstart, hrun⟩ := Option.bind_eq_some_iff.mp hbegun
  by_cases hjobs : jobs = []
  · subst hjobs
    obtain rfl := h.still hstart hrun
    rw [(doJobs_parts hstart).1, h.waiting w] at hw
    cases hw
  · obtain ⟨hbegin, hjobs₁⟩ := h.start code hjobs hnodup hstart
    obtain ⟨⟨t, hp⟩, hjobs₂⟩ := hbegin.run_all hrun
    exact hp.call_isSome hcode ((hjobs₂.trans hjobs₁) ▸ hseq) hw hleft

/-- **And none is stuck.**  Whatever the workers have done in a round, they can go on to its
end. -/
theorem AtRest.finish [Nonempty W] (code : JobCode Job Call σ) {jobs : List Job}
    (hcode : Independent code.call) (hnodup : jobs.Nodup) (h : s.AtRest jobs)
    (hseq : (Runs.runAll (act code.call) s.shared (inTurn code.calls jobs)).isSome = true)
    {schedule : List W} (hbegun : s.begun code schedule = some s₂) :
    ∃ more s', s.round code (schedule ++ more) = some s' := by
  obtain ⟨s₁, hstart, hrun⟩ := Option.bind_eq_some_iff.mp hbegun
  obtain ⟨more, s₃, hmore, hreturn⟩ : ∃ more s₃, Runs.runAll (threadEntry code) s₂ more = some s₃ ∧
      s₃.waitThreads.isSome = true := by
    by_cases hjobs : jobs = []
    · subst hjobs
      obtain ⟨-, hempty, -, hcaller, -⟩ := doJobs_parts hstart
      obtain rfl := h.still hstart hrun
      refine ⟨[], s₂, rfl, ?_⟩
      have hmay : s₂.pool.mayReturn = true := by
        simp [ThreadPool.mayReturn, hempty.trans h.jobs_eq]
      rw [waitThreads, ThreadPool.step, if_pos ⟨hcaller, hmay⟩]
      rfl
    · obtain ⟨hbegin, hjobs₁⟩ := h.start code hjobs hnodup hstart
      obtain ⟨⟨t, hp⟩, hjobs₂⟩ := hbegin.run_all hrun
      exact hp.finish hcode ((hjobs₂.trans hjobs₁) ▸ hseq)
  obtain ⟨s', hs'⟩ := Option.isSome_iff_exists.mp hreturn
  refine ⟨more, s', Option.bind_eq_some_iff.mpr ⟨s₁, hstart, ?_⟩⟩
  rw [Runs.runAll_append, hrun]
  exact Option.bind_eq_some_iff.mpr ⟨s₃, hmore, hs'⟩

end SharedPool

end NetworkEmulator
